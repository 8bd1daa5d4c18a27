import LiveMarkup.Proofs.Disposal

/-!
Who is listed by whom. An owner comes to be listed when it is made, by its parent, and never again by another one. So an
owner is not older than whoever lists it, and who was there at some time is listed afterwards only by who listed it then.
Besides, a run that gives a result leaves the observer as it was, and no cell in use that was not so before.
-/

namespace LiveMarkup.Reactive
open Run Reactive.Graph Option Table

variable {P : Type → Type} {σ ν : Type} {state : State P σ ν} {meaning : Interpretation P σ ν}

section Lists

variable {base graph next : Graph P ν} {e : OwnerId}

structure Graph.Fewer (graph next : Graph P ν) : Prop where
  nextId_le : graph.nextId ≤ next.nextId
  owners : ∀ p q, next.owners.get? p = some q →
    ∃ old, graph.owners.get? p = some old ∧ ∀ child ∈ q.children, child ∈ old.children

theorem Graph.Fewer.same (owners : next.owners = graph.owners) (nextId_le : graph.nextId ≤ next.nextId) :
    graph.Fewer next :=
  ⟨nextId_le, fun _ q found => ⟨q, owners ▸ found, fun _ => id⟩⟩

theorem Graph.Alike.fewer (alike : graph.Alike next) : graph.Fewer next := by
  refine ⟨alike.nextId_le, fun p q found => ?_⟩
  obtain ⟨old, there, same⟩ := alike.back found
  exact ⟨old, there, fun child mem => same ▸ mem⟩

theorem Graph.Fewer.resetOwner (graph : Graph P ν) (e : OwnerId) : graph.Fewer (graph.resetOwner e) := by
  refine ⟨le_rfl, fun p q found => ?_⟩
  rw [owners_resetOwner] at found
  obtain ⟨old, there, rfl⟩ := map_eq_some_iff.mp found
  refine ⟨old, there, fun child mem => ?_⟩
  split at mem
  · simp at mem
  · exact mem

theorem Graph.Fewer.eraseOwner (graph : Graph P ν) (e : OwnerId) : graph.Fewer (graph.eraseOwner e) := by
  refine ⟨le_rfl, fun p q found => ?_⟩
  rw [owners_erased] at found
  split at found
  · cases found
  · obtain ⟨old, there, rfl⟩ := map_eq_some_iff.mp found
    refine ⟨old, there, fun child mem => ?_⟩
    split at mem
    · exact (List.mem_filter.mp mem).1
    · exact mem

/-- Numbers are given in order, and who was there in `base` is listed only by who listed it then. -/
structure Graph.Orderly (base graph : Graph P ν) : Prop where
  counted : graph.Counted
  since : base.nextId ≤ graph.nextId
  upward : ∀ p q, graph.owners.get? p = some q → ∀ e ∈ q.children, p ≤ e
  listed : ∀ p q, graph.owners.get? p = some q → ∀ e ∈ q.children, e < base.nextId →
    ∃ q', base.owners.get? p = some q' ∧ e ∈ q'.children

theorem Graph.Orderly.rebase (orderly : base.Orderly graph) : graph.Orderly graph :=
  { orderly with
    since := le_rfl
    listed := fun _ q found _ mem _ => ⟨q, found, mem⟩ }

theorem Graph.Orderly.fewer (orderly : base.Orderly graph) (fewer : graph.Fewer next) : base.Orderly next where
  counted := orderly.counted.fewer fewer.nextId_le fewer.owners
  since := orderly.since.trans fewer.nextId_le
  upward p q found e mem := by
    obtain ⟨old, there, kept⟩ := fewer.owners p q found
    exact orderly.upward p old there e (kept e mem)
  listed p q found e mem before := by
    obtain ⟨old, there, kept⟩ := fewer.owners p q found
    exact orderly.listed p old there e (kept e mem) before

theorem Graph.listed_newOwner {graph : Graph P ν} {parent : Option OwnerId} {body : Option (Body P ν)} {p : OwnerId}
    {q : Owner P ν} (found : (graph.newOwner parent body).2.owners.get? p = some q) (mem : e ∈ q.children) :
    e = graph.nextId ∨ ∃ old, graph.owners.get? p = some old ∧ e ∈ old.children := by
  rw [owners_newOwner] at found
  obtain ⟨old, there, rfl⟩ := map_eq_some_iff.mp found
  have before : e ∈ old.children → ∃ old, graph.owners.get? p = some old ∧ e ∈ old.children := fun mem => by
    split at there
    · obtain rfl := some.inj there
      simp at mem
    · exact ⟨old, there, mem⟩
  split at mem
  · exact (List.mem_append.mp mem).symm.imp List.mem_singleton.mp before
  · exact .inr (before mem)

theorem Graph.Orderly.newOwner (orderly : base.Orderly graph) (parent : Option OwnerId) (body : Option (Body P ν)) :
    base.Orderly (graph.newOwner parent body).2 where
  counted := orderly.counted.newOwner parent body
  since := orderly.since.trans (Nat.le_succ _)
  upward p q found e mem := by
    rcases listed_newOwner found mem with rfl | ⟨old, there, mem⟩
    · exact Nat.le_of_lt_succ ((orderly.counted.newOwner parent body).owners p q found)
    · exact orderly.upward p old there e mem
  listed p q found e mem before := by
    rcases listed_newOwner found mem with rfl | ⟨old, there, mem⟩
    · exact absurd before (not_lt.mpr orderly.since)
    · exact orderly.listed p old there e mem before

theorem Graph.Under.not_older {top : OwnerId} (under : graph.Under top e) (orderly : base.Orderly graph) : top ≤ e := by
  induction under with
  | top => exact le_rfl
  | listed _ found mem ih => exact ih.trans (orderly.upward _ _ found _ mem)

end Lists

section Runs

structure Graph.Within (observer : Option OwnerId) (used : Set CellId) (graph : Graph P ν) : Prop where
  observer_eq : graph.observer = observer
  used : ∀ c slot, graph.cells.get? c = some slot → slot.inUse = true → c ∈ used

structure Graph.Tame (graph next : Graph P ν) : Prop where
  observer_eq : next.observer = graph.observer
  used : ∀ c slot, next.cells.get? c = some slot → slot.inUse = true →
    ∃ old, graph.cells.get? c = some old ∧ old.inUse = true

variable {graph next : Graph P ν} {observer : Option OwnerId} {used : Set CellId}

theorem Graph.Within.tame (within : graph.Within observer used) (tame : graph.Tame next) : next.Within observer used where
  observer_eq := tame.observer_eq.trans within.observer_eq
  used c slot found busy := by
    obtain ⟨old, there, busy⟩ := tame.used c slot found busy
    exact within.used c old there busy

section

variable (graph)

theorem Graph.Tame.refl : graph.Tame graph := ⟨rfl, fun _ slot found busy => ⟨slot, found, busy⟩⟩

theorem Graph.Tame.modifyCell (cell : CellId) {change : Cell ν → Cell ν}
    (same : ∀ slot, (change slot).inUse = slot.inUse) : graph.Tame { graph with cells := graph.cells.modify cell change } := by
  refine ⟨rfl, fun c slot found busy => ?_⟩
  obtain ⟨old, there, rfl | rfl⟩ := get?_modify_some found
  · exact ⟨old, there, same old ▸ busy⟩
  · exact ⟨slot, there, busy⟩

theorem Graph.Tame.newCell (value : Option ν) : graph.Tame (graph.newCell value).2 := by
  refine ⟨rfl, fun c slot found busy => ?_⟩
  simp only [Graph.newCell, get?_insert] at found
  split at found
  · obtain rfl := some.inj found
    cases busy
  · exact ⟨slot, found, busy⟩

theorem Graph.Tame.track (cell : CellId) : graph.Tame (graph.track cell) := by
  unfold Graph.track
  split
  · exact .refl graph
  · split
    · rename_i observer _ _
      have listed : graph.Tame { graph with
          cells := graph.cells.modify cell fun c => { c with subscribers := insertSorted observer c.subscribers } } :=
        .modifyCell graph cell fun _ => rfl
      exact ⟨rfl, listed.used⟩
    · exact .refl graph

theorem Graph.Tame.release (e : OwnerId) (sources dropped : List CellId) :
    graph.Tame (graph.release e sources dropped) := by
  refine ⟨rfl, fun c slot found busy => ?_⟩
  rw [cells_release] at found
  split at found
  · cases found
  · split at found
    · obtain ⟨old, there, rfl⟩ := map_eq_some_iff.mp found
      exact ⟨old, there, busy⟩
    · exact ⟨slot, found, busy⟩

theorem Graph.Tame.enqueueSubscribers (cell : CellId) : graph.Tame (graph.enqueueSubscribers cell) := by
  unfold Graph.enqueueSubscribers
  split
  · exact .refl graph
  · exact ⟨rfl, (Graph.Tame.refl graph).used⟩

theorem Graph.Tame.addCleanup (task : P Unit) : graph.Tame (graph.addCleanup task) := by
  unfold Graph.addCleanup
  split
  · exact .refl graph
  · exact ⟨rfl, (Graph.Tame.refl graph).used⟩

end

structure Lasting (holds : Graph P ν → Prop) : Prop where
  fewer : ∀ {graph next}, holds graph → graph.Fewer next → holds next
  newOwner : ∀ {graph} (parent : Option OwnerId) (body : Option (Body P ν)), holds graph →
    holds (graph.newOwner parent body).2

theorem Lasting.orderly (base : Graph P ν) : Lasting (base.Orderly) :=
  ⟨fun orderly fewer => orderly.fewer fewer, fun parent body orderly => orderly.newOwner parent body⟩

variable {holds : Graph P ν → Prop} {self : Runner P σ ν} {α β : Type} {body : Run P σ ν α}

def Kept (holds : Graph P ν → Prop) (observer : Option OwnerId) (used : Set CellId) (state : State P σ ν) : Prop :=
  state.graph.Within observer used ∧ holds state.graph

def Lasts (holds : Graph P ν → Prop) (run : Run P σ ν α) : Prop :=
  ∀ observer used, Leads (Kept holds observer used) run (Kept holds observer used)

def LastsAll (holds : Graph P ν → Prop) (self : Runner P σ ν) : Prop := ∀ {ι : Type} (job : Job P ι), Lasts holds (self job)

theorem Lasts.rules : RunRules fun (run : Run P σ ν _) _ => Lasts holds run :=
  .all fun observer => .all fun used => Leads.rules (Kept holds observer used)

theorem Lasts.pure (value : α) : Lasts holds (Pure.pure value : Run P σ ν α) := fun _ _ => Leads.pure value

theorem Lasts.bind {first : Run P σ ν α} {after : α → Run P σ ν β} (one : Lasts holds first)
    (two : ∀ value, Lasts holds (after value)) : Lasts holds (first >>= after) :=
  fun observer used => (one observer used).bind fun value => two value observer used

theorem Lasts.see {ι : Type} {view : Graph P ν → ι} {after : ι → Run P σ ν β} (lasts : ∀ value, Lasts holds (after value)) :
    Lasts holds (seeGraph view >>= after) :=
  fun observer used => Leads.see fun value => (lasts value observer used).mono (fun _ => And.left) fun _ => id

theorem Kept.change (lasting : Lasting holds) {state : State P σ ν} (kept : Kept holds observer used state)
    (fewer : state.graph.Fewer next) (tame : state.graph.Tame next) : Kept holds observer used { state with graph := next } :=
  ⟨kept.1.tame tame, lasting.fewer kept.2 fewer⟩

theorem Kept.flags (lasting : Lasting holds) {state : State P σ ν} (kept : Kept holds observer used state)
    (queue : List OwnerId) (flushing : Bool) (batchDepth : Nat) :
    Kept holds observer used { state with graph := { state.graph with queue, flushing, batchDepth } } :=
  kept.change lasting (.same rfl (le_rfl)) ⟨rfl, (Graph.Tame.refl state.graph).used⟩

theorem Lasts.alter (lasting : Lasting holds) {change : Graph P ν → Graph P ν}
    (fewer : ∀ graph : Graph P ν, graph.Fewer (change graph)) (tame : ∀ graph : Graph P ν, graph.Tame (change graph))
    (follows : ∀ state : State P σ ν, Follows state { state with graph := change state.graph }) :
    Lasts holds (alterGraph change : Run P σ ν Unit) :=
  fun _ _ => Leads.alter fun state kept => ⟨kept.change lasting (fewer state.graph) (tame state.graph), follows state⟩

theorem Lasts.alike (lasting : Lasting holds) {change : Graph P ν → Graph P ν}
    (alike : ∀ graph : Graph P ν, graph.Alike (change graph)) (tame : ∀ graph : Graph P ν, graph.Tame (change graph))
    (grows : ∀ graph : Graph P ν, graph.Grows (change graph)) : Lasts holds (alterGraph change : Run P σ ν Unit) :=
  .alter lasting (fun graph => (alike graph).fewer) tame fun state =>
    ⟨grows state.graph, (alike state.graph).flushing_eq, (alike state.graph).batchDepth_eq⟩

theorem Lasts.flush (lasting : Lasting holds) (all : LastsAll holds self) : Lasts holds (flush self) := fun observer used =>
  Leads.flush (all .drain observer used) (fun _ kept _ => kept) (fun state kept => kept.flags lasting state.graph.queue true _)
    fun state kept => kept.flags lasting state.graph.queue false _

theorem Lasts.notify (lasting : Lasting holds) (all : LastsAll holds self) (cell : CellId) :
    Lasts holds (notify self cell) := by
  have queues : Lasts holds (alterGraph (·.enqueueSubscribers cell) : Run P σ ν Unit) := by
    refine .alter lasting (fun graph => ?_) (fun graph => .enqueueSubscribers graph cell) fun state => ?_
    · unfold enqueueSubscribers
      split <;> exact .same rfl (le_rfl)
    · unfold enqueueSubscribers
      split
      · exact .refl state
      · exact ⟨⟨le_rfl, fun _ owner found => .inr ⟨owner, found, rfl⟩⟩, rfl, rfl⟩
  exact Lasts.rules.notify self self queues (.flush lasting all)

theorem Lasts.inBatch (lasting : Lasting holds) (all : LastsAll holds self) (lasts : Lasts holds body) :
    Lasts holds (inBatch self body) := fun observer used =>
  Leads.batch (lasts observer used) (Lasts.flush lasting all observer used)
    (fun state kept => kept.flags lasting state.graph.queue state.graph.flushing _)
    (fun state kept => kept.flags lasting state.graph.queue state.graph.flushing _) fun _ kept _ => kept

theorem Lasts.inContext (lasting : Lasting holds) (lasts : Lasts holds body)
    (owner observer : Option OwnerId) : Lasts holds (inContext owner observer body) := fun _ used =>
  Leads.context (lasts observer used)
    (fun _ kept => ⟨⟨rfl, kept.1.used⟩, lasting.fewer kept.2 (.same rfl (le_rfl))⟩)
    fun _ _ kept _ mem => ⟨⟨kept.1.observer_eq, mem.1.used⟩, lasting.fewer mem.2 (.same rfl (le_rfl))⟩

theorem Lasts.note (happening : Happening) : Lasts holds (note happening : Run P σ ν Unit) := by
  intro observer used state result next before ok
  cases ok
  exact ⟨before, .refl _, rfl, rfl⟩

theorem Lasts.store (lasting : Lasting holds) (cell : CellId) (value : ν) :
    Lasts holds (store cell value : Run P σ ν Unit) :=
  Lasts.bind (.alike lasting (fun _ => ⟨le_rfl, fun _ => rfl, rfl, rfl, rfl⟩)
    (fun graph => .modifyCell graph cell fun _ => rfl)
    fun _ => ⟨le_rfl, fun _ owner found => .inr ⟨owner, found, rfl⟩⟩) fun _ => .note _

theorem Lasts.write (lasting : Lasting holds) (all : LastsAll holds self) (cell : CellId) (value : ν) :
    Lasts holds (write self cell value) :=
  Lasts.rules.write self self ((Lasts.store lasting cell value).bind fun _ => .notify lasting all cell)

theorem Lasts.forM {γ : Type} {step : γ → Run P σ ν Unit} (lasts : ∀ item, Lasts holds (step item)) (items : List γ) :
    Lasts holds (items.forM step) := fun observer used => Leads.forM (fun item => lasts item observer used) items

theorem Lasts.clean (lasting : Lasting holds) (all : LastsAll holds self) (e : OwnerId) : Lasts holds (clean self e) := by
  refine .see fun found => ?_
  cases found with
  | none => exact .pure ()
  | some owner =>
    refine Lasts.bind (.alter lasting (fun graph => .resetOwner graph e) (fun graph => ⟨rfl, (Graph.Tame.refl graph).used⟩)
      fun state => ⟨(Quiet.resetOwner state.graph e : Quiet ∅ _ _).grows, rfl, rfl⟩) fun _ => ?_
    refine (Lasts.forM (fun child => all (.dispose child)) _).bind fun _ => ?_
    refine (Lasts.forM (fun task => all (.perform task)) _).bind fun _ => ?_
    exact .alter lasting (fun _ => .same rfl (le_rfl)) (fun graph => .release graph e _ _) fun state =>
      ⟨(Quiet.release state.graph (Set.mem_univ e) owner.sources owner.cells).grows, rfl, rfl⟩

theorem Lasts.dispose (lasting : Lasting holds) (all : LastsAll holds self) (e : OwnerId) : Lasts holds (dispose self e) :=
  (Lasts.clean lasting all e).bind fun _ => .alter lasting (fun graph => .eraseOwner graph e)
    (fun graph => ⟨rfl, (Graph.Tame.refl graph).used⟩) fun state =>
      ⟨(Quiet.eraseOwner state.graph e : Quiet ∅ _ _).grows, rfl, rfl⟩

theorem Lasts.runBody [BEq ν] (lasting : Lasting holds) (all : LastsAll holds self) (body : Body P ν) :
    Lasts holds (runBody self body) :=
  Lasts.rules.runBody self self (fun task => all (.perform task)) (.store lasting) (.write lasting all)

theorem Lasts.rerun [BEq ν] (lasting : Lasting holds) (all : LastsAll holds self) (e : OwnerId) :
    Lasts holds (rerun self e) := by
  refine .see fun found => ?_
  cases found.bind Owner.body with
  | none => exact .pure ()
  | some body =>
    exact (Lasts.clean lasting all e).bind fun _ => (Lasts.note _).bind fun _ =>
      (Lasts.runBody lasting all body).inContext lasting _ _

theorem Lasts.drain (lasting : Lasting holds) (all : LastsAll holds self) : Lasts holds (drain self) := by
  refine .see fun queue => ?_
  cases queue with
  | nil => exact .pure ()
  | cons first =>
    refine Lasts.bind (.alter lasting (fun _ => .same rfl (le_rfl)) (fun graph => ⟨rfl, (Graph.Tame.refl graph).used⟩)
      fun _ => ?_) fun _ => (all (.rerun first)).bind fun _ => all .drain
    exact ⟨⟨le_rfl, fun _ owner found => .inr ⟨owner, found, rfl⟩⟩, rfl, rfl⟩

theorem Lasts.makeOwner (lasting : Lasting holds) (parent : Graph P ν → Option OwnerId) (body : Option (Body P ν)) :
    Lasts holds (changeGraph fun graph => graph.newOwner (parent graph) body : Run P σ ν OwnerId) := by
  intro observer used state result next before ok
  cases ok
  exact ⟨⟨before.1.tame ⟨rfl, (Graph.Tame.refl state.graph).used⟩, lasting.newOwner _ body before.2⟩,
    (Quiet.newOwner state.graph _ body : Quiet ∅ _ _).grows, rfl, rfl⟩

theorem Lasts.makeCell (lasting : Lasting holds) (value : Option ν) :
    Lasts holds (changeGraph (·.newCell value) : Run P σ ν CellId) := by
  intro observer used state result next before ok
  cases ok
  exact ⟨before.change lasting (Graph.Alike.newCell state.graph value).fewer (.newCell state.graph value),
    (Quiet.newCell state.graph value : Quiet ∅ _ _).grows, rfl, rfl⟩

theorem Lasts.newReaction (lasting : Lasting holds) (all : LastsAll holds self) (body : Body P ν) :
    Lasts holds (newReaction self body) :=
  (Lasts.makeOwner lasting owner (some body)).bind fun id =>
    (Lasts.inBatch lasting all (all (.rerun id))).bind fun _ => .pure id

theorem Lasts.updateCell {body : ν → Run P σ ν ν} (lasting : Lasting holds) (all : LastsAll holds self) {cell : CellId}
    (lasts : ∀ old, Lasts holds (body old)) : Lasts holds (updateCell self cell body) := by
  have follows : ∀ (inUse : Bool) (state : State P σ ν), Follows state { state with graph := state.graph.setInUse cell inUse } :=
    fun _ _ => ⟨⟨le_rfl, fun _ owner found => .inr ⟨owner, found, rfl⟩⟩, rfl, rfl⟩
  have takes : ∀ observer used, Leads (Kept holds observer used) (alterGraph (·.setInUse cell true) : Run P σ ν Unit)
      (Kept holds observer (insert cell used)) := fun observer used => Leads.alter fun state kept => by
    refine ⟨⟨⟨kept.1.observer_eq, fun c slot found busy => ?_⟩, lasting.fewer kept.2 (.same rfl (le_rfl))⟩,
      follows true state⟩
    rw [setInUse, get?_modify] at found
    split at found
    · exact .inl ‹_›
    · exact .inr (kept.1.used c slot found busy)
  have leaves : ∀ observer used, Leads (Kept holds observer (insert cell used))
      (alterGraph (·.setInUse cell false) : Run P σ ν Unit) (Kept holds observer used) :=
      fun observer used => Leads.alter fun state kept => by
    refine ⟨⟨⟨kept.1.observer_eq, fun c slot found busy => ?_⟩, lasting.fewer kept.2 (.same rfl (le_rfl))⟩,
      follows false state⟩
    rw [setInUse, get?_modify] at found
    split at found
    · obtain ⟨_, _, rfl⟩ := map_eq_some_iff.mp found
      cases busy
    · exact (kept.1.used c slot found busy).resolve_left ‹_›
  exact Lasts.rules.updateCell self self body body fun old observer used => (takes observer used).bind fun _ =>
    (lasts old observer _).bind fun value => (Lasts.store lasting cell value observer _).bind fun _ =>
      (leaves observer used).bind fun _ => Lasts.notify lasting all cell observer used

theorem Lasts.steps (lasting : Lasting holds) (all : LastsAll holds self) :
    RunSteps (fun (run : Run P σ ν _) _ => Lasts holds run) self self where
  toRunRules := Lasts.rules
  state change observer used state result next before ok := by
    cases ok
    exact ⟨before, .refl _, rfl, rfl⟩
  perform task := all (.perform task)
  newSignal value := .makeCell lasting (some value)
  newComputed task := Lasts.rules.newComputed self self (.makeCell lasting none) fun _ => .newReaction lasting all _
  newEffect task := .newReaction lasting all (.effect task)
  newRoot := .makeOwner lasting (fun _ => none) none
  onDispose task := .alike lasting (fun graph => .addCleanup graph task) (fun graph => .addCleanup graph task)
    fun graph => (Quiet.addCleanup graph task : Quiet ∅ _ _).grows
  dispose := .dispose lasting all
  read tracked cell := Lasts.rules.read (.alike lasting (fun graph => .track graph cell) (fun graph => .track graph cell)
    fun graph => .track graph cell) fun _ => .note _
  write := .write lasting all
  inBatch := .inBatch lasting all
  unobserved owner lasts := lasts.inContext lasting owner none
  update := .updateCell lasting all

theorem Lasts.program (lasting : Lasting holds) (all : LastsAll holds self) (program : Program P σ ν α) :
    Lasts holds (program.run self) := (Lasts.steps lasting all).program program

theorem LastsAll.step [BEq ν] (lasting : Lasting holds) (all : LastsAll holds self) (meaning : Interpretation P σ ν) :
    LastsAll holds (Job.step meaning self) := by
  intro ι job
  cases job with
  | perform task => exact .program lasting all (meaning task)
  | dispose e => exact .dispose lasting all e
  | rerun e => exact .rerun lasting all e
  | drain => exact .drain lasting all

theorem LastsAll.run [BEq ν] (lasting : Lasting holds) (meaning : Interpretation P σ ν) (fuel : Nat) :
    LastsAll holds (Job.run meaning fuel) := by
  induction fuel with
  | zero => exact fun _ _ _ => Leads.throw _
  | succ _ ih => exact ih.step lasting meaning

end Runs

theorem Reached.kept [BEq ν] (reached : Reached meaning state) : Kept (state.graph.Orderly) none ∅ state := by
  induction reached with
  | start =>
    refine ⟨⟨rfl, ?_⟩, ⟨?_, ?_⟩, le_rfl, ?_, ?_⟩ <;> simp [get?, find?]
  | call _ program fuel returns ih =>
    have kept := (Lasts.program (.orderly _) (LastsAll.run (.orderly _) meaning fuel) program none ∅ _ _ _ ih returns).1
    exact ⟨kept.1, kept.2.rebase⟩

theorem Reached.orderly [BEq ν] (reached : Reached meaning state) : state.graph.Orderly state.graph := reached.kept.2

end LiveMarkup.Reactive
