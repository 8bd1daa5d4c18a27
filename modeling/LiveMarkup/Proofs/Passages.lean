import LiveMarkup.Proofs.Bonds

/-!
What every part of a run may do to owners and reactions, however long it is and however it stops: what is said of a part
that ends in a fault is said as well of runs that do not come to an end, as far as they are followed. Owners that are
gone stay so and begin no more, and queued reactions begin only in a round.
-/

namespace LiveMarkup.Reactive
open Option Reactive.Graph Nat

variable {P : Type → Type} {σ ν : Type}

instance : LawfulBEq Happening where
  eq_of_beq {a b} same := by cases a <;> cases b <;> simp_all [BEq.beq, instBEqHappening.beq]
  rfl {a} := by cases a <;> simp [BEq.beq, instBEqHappening.beq]

/-- Owners, also listed ones, have numbers that were given out. -/
structure Graph.Counted (graph : Graph P ν) : Prop where
  owners : ∀ e o, graph.owners.get? e = some o → e < graph.nextId
  children : ∀ e o, graph.owners.get? e = some o → ∀ child ∈ o.children, child < graph.nextId

def State.starts (state : State P σ ν) (e : OwnerId) : Nat := state.history.count (.began e)

def State.writes (state : State P σ ν) (c : CellId) : Nat := state.history.count (.wrote c)

/-- Queued reactions wait, since there is a round or a batch. -/
def State.Held (state : State P σ ν) : Prop := state.graph.flushing = true ∨ 0 < state.graph.batchDepth

/-- The state in which a run has stopped, with a result or with a fault. -/
def lastState {α : Type} : EStateM.Result Fault (State P σ ν) α → State P σ ν
  | .ok _ state => state
  | .error _ state => state

section Passages

variable {loud : Prop} {exempt again : Set OwnerId} {state next first second third : State P σ ν}
variable {graph : Graph P ν} {q : Owner P ν} {p : OwnerId}

/-- What a part of a run may do. A reaction that is gone stays so and begins no more. Another old one, if it is not exempt,
begins only when reactions do not have to wait, and only when one has been queued before or a cell is written. If the
part is loud, one may also be queued for what was written before. -/
structure Passes (loud : Prop) (exempt : Set OwnerId) (state next : State P σ ν) : Prop where
  history : state.history <:+ next.history
  nextId_le : state.graph.nextId ≤ next.graph.nextId
  counted : next.graph.Counted
  gone : ∀ e < state.graph.nextId, state.graph.ownerAlive e = false →
    next.graph.ownerAlive e = false ∧ next.starts e = state.starts e
  held : state.Held → ∀ e < state.graph.nextId, e ∉ exempt → next.starts e = state.starts e
  idle : ¬ loud → state.graph.queue = [] → (∀ c, next.writes c = state.writes c) →
    ∀ e < state.graph.nextId, e ∉ exempt → next.starts e = state.starts e

/-- What a part of a run may do that gives a result. Whoever was listed is still listed or is gone. -/
structure Ends (loud : Prop) (exempt : Set OwnerId) (state next : State P σ ν) : Prop extends
    Passes loud exempt state next where
  flushing_eq : next.graph.flushing = state.graph.flushing
  batchDepth_eq : next.graph.batchDepth = state.graph.batchDepth
  emptied : ¬ loud → state.graph.queue = [] → (∀ c, next.writes c = state.writes c) → next.graph.queue = []
  lists : ∀ p q, state.graph.owners.get? p = some q → ∀ e ∈ q.children,
    next.graph.ownerAlive e = false ∨ ∃ q', next.graph.owners.get? p = some q' ∧ e ∈ q'.children

theorem State.writes_le (since : state.history <:+ next.history) (c : CellId) : state.writes c ≤ next.writes c :=
  since.sublist.count_le _

theorem Passes.unwritten (one : Passes loud exempt first second) (two : Passes loud again second third)
    (same : ∀ c, third.writes c = first.writes c) :
    (∀ c, second.writes c = first.writes c) ∧ ∀ c, third.writes c = second.writes c := by
  have middle : ∀ c, second.writes c = first.writes c := fun c =>
    le_antisymm (same c ▸ State.writes_le two.history c) (State.writes_le one.history c)
  exact ⟨middle, fun c => (same c).trans (middle c).symm⟩

theorem Ends.passes (one : Ends loud exempt first second) (two : Passes loud again second third)
    (new : ∀ e ∈ again, e ∈ exempt ∨ first.graph.nextId ≤ e) : Passes loud exempt first third := by
  have free : ∀ e < first.graph.nextId, e ∉ exempt → e ∉ again := fun e old free mem =>
    (new e mem).elim free (not_le.mpr old)
  refine ⟨one.history.trans two.history, one.nextId_le.trans two.nextId_le, two.counted, ?_, ?_, ?_⟩
  · intro e old gone
    obtain ⟨gone, same⟩ := one.gone e old gone
    obtain ⟨gone, later⟩ := two.gone e (old.trans_le one.nextId_le) gone
    exact ⟨gone, later.trans same⟩
  · intro held e old apart
    have still : second.Held := by
      unfold State.Held
      rwa [one.flushing_eq, one.batchDepth_eq]
    exact (two.held still e (old.trans_le one.nextId_le) (free e old apart)).trans (one.held held e old apart)
  · intro quiet empty same e old apart
    obtain ⟨before, after⟩ := one.unwritten two same
    exact (two.idle quiet (one.emptied quiet empty before) after e (old.trans_le one.nextId_le) (free e old apart)).trans
      (one.idle quiet empty before e old apart)

theorem Ends.trans (counted : first.graph.Counted) (one : Ends loud exempt first second)
    (two : Ends loud again second third) (new : ∀ e ∈ again, e ∈ exempt ∨ first.graph.nextId ≤ e) :
    Ends loud exempt first third := by
  refine ⟨one.passes two.toPasses new, two.flushing_eq.trans one.flushing_eq, two.batchDepth_eq.trans one.batchDepth_eq, ?_, ?_⟩
  · intro quiet empty same
    obtain ⟨before, after⟩ := one.unwritten two.toPasses same
    exact two.emptied quiet (one.emptied quiet empty before) after
  · intro p q found e mem
    rcases one.lists p q found e mem with gone | ⟨q', found', inside'⟩
    · have old : e < second.graph.nextId := (counted.children p q found e mem).trans_le one.nextId_le
      exact .inl (two.gone e old gone).1
    · exact two.lists p q' found' e inside'

theorem Passes.widen (passes : Passes loud exempt state next) (wider : exempt ⊆ again) : Passes loud again state next :=
  { passes with
    held := fun held e old free => passes.held held e old fun mem => free (wider mem)
    idle := fun quiet empty same e old free => passes.idle quiet empty same e old fun mem => free (wider mem) }

theorem Ends.widen (ends : Ends loud exempt state next) (wider : exempt ⊆ again) : Ends loud again state next :=
  { ends with toPasses := ends.toPasses.widen wider }

structure Graph.Alike (graph next : Graph P ν) : Prop where
  nextId_le : graph.nextId ≤ next.nextId
  children : ∀ e, (next.owners.get? e).map Owner.children = (graph.owners.get? e).map Owner.children
  flushing_eq : next.flushing = graph.flushing
  batchDepth_eq : next.batchDepth = graph.batchDepth
  queue_eq : next.queue = graph.queue

theorem Graph.Alike.refl (graph : Graph P ν) : graph.Alike graph := ⟨le_rfl, fun _ => rfl, rfl, rfl, rfl⟩

theorem Graph.Alike.alive_eq {next : Graph P ν} (alike : graph.Alike next) (e : OwnerId) :
    next.ownerAlive e = graph.ownerAlive e := by
  have same := congrArg isSome (alike.children e)
  rwa [isSome_map, isSome_map] at same

theorem Graph.Alike.listed {next : Graph P ν} (alike : graph.Alike next)
    (found : graph.owners.get? p = some q) : ∃ q', next.owners.get? p = some q' ∧ q'.children = q.children := by
  have same := alike.children p
  rw [found, map_some] at same
  exact map_eq_some_iff.mp same

theorem Graph.Alike.back {next : Graph P ν} (alike : graph.Alike next)
    (found : next.owners.get? p = some q) : ∃ q', graph.owners.get? p = some q' ∧ q'.children = q.children := by
  have same := (alike.children p).symm
  rw [found, map_some] at same
  exact map_eq_some_iff.mp same

theorem Graph.Counted.fewer {next : Graph P ν} (counted : graph.Counted) (nextId_le : graph.nextId ≤ next.nextId)
    (owners : ∀ p q, next.owners.get? p = some q →
      ∃ old, graph.owners.get? p = some old ∧ ∀ child ∈ q.children, child ∈ old.children) : next.Counted := by
  constructor
  · intro p q found
    obtain ⟨old, there, _⟩ := owners p q found
    exact (counted.owners p old there).trans_le nextId_le
  · intro p q found child mem
    obtain ⟨old, there, kept⟩ := owners p q found
    exact (counted.children p old there child (kept child mem)).trans_le nextId_le

theorem Graph.Alike.counted {graph next : Graph P ν} (alike : graph.Alike next) (counted : graph.Counted) :
    next.Counted := by
  refine counted.fewer alike.nextId_le fun p q found => ?_
  obtain ⟨old, there, same⟩ := alike.back found
  exact ⟨old, there, fun child mem => same ▸ mem⟩

theorem children_modify (owners : Table (Owner P ν)) (e : OwnerId) {change : Owner P ν → Owner P ν}
    (same : ∀ o, (change o).children = o.children) (x : OwnerId) :
    ((owners.modify e change).get? x).map Owner.children = (owners.get? x).map Owner.children := by
  rw [Table.get?_modify_eq_map, map_map]
  refine congrArg (Option.map · _) (funext fun o => ?_)
  dsimp only [Function.comp]
  split
  · exact same o
  · rfl

theorem Graph.Alike.newCell (graph : Graph P ν) (value : Option ν) : graph.Alike (graph.newCell value).2 := by
  refine ⟨le_succ _, fun e => ?_, rfl, rfl, rfl⟩
  unfold Graph.newCell
  cases graph.owner with
  | none => rfl
  | some owner =>
    refine children_modify graph.owners owner ?_ e
    exact fun _ => rfl

theorem Graph.Alike.track (graph : Graph P ν) (cell : CellId) : graph.Alike (graph.track cell) := by
  obtain ⟨queue, flushing, depth, _⟩ := graph.track_frame cell
  refine ⟨(Graph.Grows.track graph cell).nextId_le, fun e => ?_, flushing, depth, queue⟩
  unfold Graph.track
  split
  · rfl
  · split
    · refine children_modify graph.owners _ ?_ e
      exact fun _ => rfl
    · rfl

theorem Graph.Alike.addCleanup (graph : Graph P ν) (task : P Unit) : graph.Alike (graph.addCleanup task) := by
  unfold Graph.addCleanup
  split
  · exact .refl graph
  · exact ⟨le_rfl, children_modify graph.owners _ fun _ => rfl, rfl, rfl, rfl⟩

theorem Ends.alike (counted : state.graph.Counted) (alike : state.graph.Alike next.graph)
    (since : state.history <:+ next.history) (starts : ∀ e, next.starts e = state.starts e) : Ends loud exempt state next where
  history := since
  nextId_le := alike.nextId_le
  counted := alike.counted counted
  gone e _ gone := ⟨(alike.alive_eq e).trans gone, starts e⟩
  held _ e _ _ := starts e
  idle _ _ _ e _ _ := starts e
  flushing_eq := alike.flushing_eq
  batchDepth_eq := alike.batchDepth_eq
  emptied _ empty _ := alike.queue_eq.trans empty
  lists p q found e mem := by
    obtain ⟨q', there, same⟩ := alike.listed found
    exact .inr ⟨q', there, same ▸ mem⟩

theorem Ends.wrote (counted : state.graph.Counted) (cell : CellId) (value : ν) :
    Ends loud exempt state { state with graph := state.graph.store cell value, history := .wrote cell :: state.history } :=
  .alike counted ⟨le_rfl, fun _ => rfl, rfl, rfl, rfl⟩ (List.suffix_cons _ _) fun e =>
    List.count_cons_of_ne (by simp)

theorem Ends.refl (counted : state.graph.Counted) : Ends loud exempt state state :=
  .alike counted (.refl _) (List.suffix_refl _) fun _ => rfl

theorem Graph.owners_newOwner (graph : Graph P ν) (parent : Option OwnerId) (body : Option (Body P ν)) (e : OwnerId) :
    (graph.newOwner parent body).2.owners.get? e =
      (if e = graph.nextId then some { parent, body } else graph.owners.get? e).map fun o =>
        if parent = some e then { o with children := o.children ++ [graph.nextId] } else o := by
  rw [← Table.get?_insert]
  cases parent with
  | none => exact (map_id' ..).symm
  | some p =>
    refine (Table.get?_modify_eq_map _ p e _).trans (congrArg (Option.map · _) (funext fun o => ?_))
    simp only [Option.some.injEq, eq_comm]

theorem Graph.Counted.newOwner {graph : Graph P ν} (counted : graph.Counted) (parent : Option OwnerId)
    (body : Option (Body P ν)) : (graph.newOwner parent body).2.Counted := by
  have listed : ∀ e o child, (graph.newOwner parent body).2.owners.get? e = some o → child ∈ o.children →
      child = graph.nextId ∨ child < graph.nextId := by
    intro e o child found mem
    rw [owners_newOwner] at found
    obtain ⟨old, there, rfl⟩ := map_eq_some_iff.mp found
    have before : child ∈ old.children → child < graph.nextId := fun mem => by
      split at there
      · obtain rfl := some.inj there
        simp at mem
      · exact counted.children e old there child mem
    split at mem
    · rcases List.mem_append.mp mem with mem | last
      · exact .inr (before mem)
      · exact .inl (List.mem_singleton.mp last)
    · exact .inr (before mem)
  constructor
  · intro e o found
    rw [owners_newOwner] at found
    obtain ⟨old, there, _⟩ := map_eq_some_iff.mp found
    split at there
    · exact lt_succ_of_le (le_of_eq ‹_›)
    · exact lt_succ_of_lt (counted.owners e old there)
  · intro e o found child mem
    exact lt_succ_of_le ((listed e o child found mem).elim le_of_eq le_of_lt)

theorem Ends.newOwner (counted : state.graph.Counted) (parent : Option OwnerId) (body : Option (Body P ν)) :
    Ends loud exempt state { state with graph := (state.graph.newOwner parent body).2 } where
  history := List.suffix_refl _
  nextId_le := le_succ _
  counted := counted.newOwner parent body
  gone e old gone := by
    refine ⟨?_, rfl⟩
    have absent := not_isSome_iff_eq_none.mp (Bool.eq_false_iff.mp gone)
    simp only [ownerAlive, Table.contains, owners_newOwner, if_neg old.ne, absent]
    rfl
  held _ _ _ _ := rfl
  idle _ _ _ _ _ _ := rfl
  flushing_eq := rfl
  batchDepth_eq := rfl
  emptied _ empty _ := empty
  lists p q found e mem := by
    have there := owners_newOwner state.graph parent body p
    rw [if_neg (counted.owners p q found).ne, found, map_some] at there
    refine .inr ⟨_, there, ?_⟩
    split
    · exact List.mem_append_left _ mem
    · exact mem

end Passages

section Runs

variable {loud : Prop} {exempt again : Set OwnerId} {state : State P σ ν} {α β : Type}
variable {result : EStateM.Result Fault (State P σ ν) α} {after : α → Run P σ ν β}

def Went (loud : Prop) (exempt : Set OwnerId) (state : State P σ ν) : EStateM.Result Fault (State P σ ν) α → Prop
  | .ok _ next => Ends loud exempt state next
  | .error _ next => Passes loud exempt state next

theorem Went.passes (went : Went loud exempt state result) : Passes loud exempt state (lastState result) := by
  cases result with
  | ok => exact went.toPasses
  | error => exact went

theorem Ends.went {middle : State P σ ν} (counted : state.graph.Counted) (one : Ends loud exempt state middle)
    (two : Went loud again middle result) (new : ∀ e ∈ again, e ∈ exempt ∨ state.graph.nextId ≤ e) :
    Went loud exempt state result := by
  cases result with
  | ok => exact one.trans counted two new
  | error => exact one.passes two new

theorem Went.bind {first : Run P σ ν α} (counted : state.graph.Counted) (one : Went loud exempt state (first state))
    (two : ∀ value middle, first state = .ok value middle → Ends loud exempt state middle →
      Went loud again middle (after value middle))
    (new : ∀ e ∈ again, e ∈ exempt ∨ state.graph.nextId ≤ e) : Went loud exempt state ((first >>= after) state) := by
  change Went loud exempt state (EStateM.bind first after state)
  unfold EStateM.bind
  cases done : first state with
  | error =>
    rw [done] at one
    exact one
  | ok value middle =>
    rw [done] at one
    exact one.went counted (two value middle done one) new

theorem Went.louder (went : Went False exempt state result) : Went True exempt state result := by
  cases result with
  | ok =>
    exact { went with idle := fun quiet => (quiet trivial).elim, emptied := fun quiet => (quiet trivial).elim }
  | error => exact { went with idle := fun quiet => (quiet trivial).elim }

theorem Went.widen {result : EStateM.Result Fault (State P σ ν) α} (went : Went loud exempt state result)
    (wider : exempt ⊆ again) : Went loud again state result := by
  cases result with
  | ok => exact Ends.widen went wider
  | error => exact Passes.widen went wider

def Goes (loud : Prop) (exempt : Set OwnerId) (run : Run P σ ν α) : Prop :=
  ∀ state, state.graph.Counted → Went loud exempt state (run state)

theorem Goes.pure (value : α) : Goes loud exempt (Pure.pure value : Run P σ ν α) := fun _ counted => Ends.refl counted

theorem Goes.throw (why : Fault) : Goes loud exempt (MonadExcept.throw why : Run P σ ν α) :=
  fun _ counted => (Ends.refl counted).toPasses

theorem Goes.bind {first : Run P σ ν α} (one : Goes loud exempt first)
    (two : ∀ value, Goes loud exempt (after value)) : Goes loud exempt (first >>= after) := fun state counted =>
  .bind counted (one state counted) (fun value middle _ ends => two value middle ends.counted) fun _ => .inl

theorem Goes.see {ι : Type} {view : Graph P ν → ι} {after : ι → Run P σ ν β} (goes : ∀ value, Goes loud exempt (after value)) :
    Goes loud exempt (Run.seeGraph view >>= after) := fun state counted => goes (view state.graph) state counted

theorem Goes.rules : RunRules fun (run : Run P σ ν _) _ => Goes loud exempt run where
  pure := .pure
  throw := .throw
  bind := .bind
  seeGraph _ _ counted := Ends.refl counted

theorem Goes.alter {change : Graph P ν → Graph P ν} (alike : ∀ graph : Graph P ν, graph.Alike (change graph)) :
    Goes loud exempt (Run.alterGraph change : Run P σ ν Unit) :=
  fun state counted => Ends.alike counted (alike state.graph) (List.suffix_refl _) fun _ => rfl

theorem Goes.ends {run : Run P σ ν α} (goes : Goes loud exempt run) (counted : state.graph.Counted) {value : α}
    {next : State P σ ν} (ok : run state = .ok value next) : Ends loud exempt state next := by
  have went := goes state counted
  rwa [ok] at went

theorem Goes.forM {γ : Type} {step : γ → Run P σ ν Unit} (goes : ∀ item, Goes loud exempt (step item)) (items : List γ) :
    Goes loud exempt (items.forM step) := Goes.rules.forM step step goes items

theorem Goes.announce {cell : CellId} {value : ν} {after : Unit → Run P σ ν α} (goes : ∀ done, Goes True exempt (after done)) :
    Goes False exempt (Run.store cell value >>= after) := by
  intro state counted
  let middle : State P σ ν :=
    { state with graph := state.graph.store cell value, history := .wrote cell :: state.history }
  have stored : Ends True exempt state middle := .wrote counted cell value
  have went := goes () middle stored.counted
  have more : state.writes cell < (lastState (after () middle)).writes cell := by
    refine lt_of_lt_of_le ?_ (State.writes_le went.passes.history cell)
    simp [State.writes, middle]
  change Went False exempt state (after () middle)
  cases done : after () middle with
  | ok =>
    rw [done] at went more
    exact { stored.trans counted went fun _ => .inl with
      idle := fun _ _ same => absurd (same cell) more.ne'
      emptied := fun _ _ same => absurd (same cell) more.ne' }
  | error =>
    rw [done] at went more
    exact { stored.passes went fun _ => .inl with idle := fun _ _ same => absurd (same cell) more.ne' }

theorem Goes.store (cell : CellId) (value : ν) : Goes loud exempt (Run.store cell value : Run P σ ν Unit) :=
  fun _ counted => Ends.wrote counted cell value

theorem Goes.newOwner (parent : Graph P ν → Option OwnerId) (body : Option (Body P ν)) :
    Goes loud exempt (Run.changeGraph fun graph => graph.newOwner (parent graph) body : Run P σ ν OwnerId) :=
  fun state counted => Ends.newOwner counted (parent state.graph) body

theorem Goes.newCell (value : Option ν) : Goes loud exempt (Run.changeGraph (·.newCell value) : Run P σ ν CellId) :=
  fun state counted => Ends.alike counted (.newCell state.graph value) (List.suffix_refl _) fun _ => rfl

theorem Goes.inContext {body : Run P σ ν α} (goes : Goes loud exempt body) (owner observer : Option OwnerId) :
    Goes loud exempt (Run.inContext owner observer body) := by
  refine .see fun before => (Goes.alter fun graph => ?_).bind fun _ => goes.bind fun value =>
    (Goes.alter fun graph => ?_).bind fun _ => .pure value
  · exact ⟨le_rfl, fun _ => rfl, rfl, rfl, rfl⟩
  · exact ⟨le_rfl, fun _ => rfl, rfl, rfl, rfl⟩

end Runs

end LiveMarkup.Reactive
