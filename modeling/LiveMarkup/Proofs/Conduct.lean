import LiveMarkup.Proofs.Ancestry
import LiveMarkup.Proofs.Flushing

/-!
What may happen while one reaction gets its turn in a round, when it is known what tasks do. Reactions run for their own
sake and write nothing, and neither do their cleanups; only what one special reaction leaves to its cleanups may write, and
only to cells that are known. Then nobody is queued as long as the special reaction is not cleaned.
-/

namespace LiveMarkup.Reactive
open List Option Leads Reactive.Graph Run Table

variable {P : Type → Type} {σ ν : Type} {o : Owner P ν} {cell : CellId}

section Casts

inductive Part where
  /-- The body of a reaction, or what it leaves to its cleanups. -/
  | other
  /-- The body of the special reaction. -/
  | own
  /-- What the special reaction leaves to its cleanups. -/
  | parting

/-- Who belongs to the special reaction while another owner is current. -/
def Part.within : Part → Setting → Part
  | .own, .ownedBy _ => .other
  | part, _ => part

structure Cast (P : Type → Type) where
  plays : Part → {ι : Type} → P ι → Prop
  /-- The cells that the special reaction leaves to its cleanups. -/
  written : Set CellId
  /-- Whether owners may be disposed by others than who has made them. -/
  disposes : Prop

variable (cast : Cast P)

def Command.Suits (part : Part) {ι : Type} : Command P σ ν ι → Prop
  | .call task => cast.plays part task
  | .newComputed _ => False
  | .newEffect task => cast.plays .other task
  | .onDispose task => cast.plays .other task ∨ part = .own ∧ cast.plays .parting task
  | .dispose _ => cast.disposes
  | .write cell _ => part = .parting ∧ cell ∈ cast.written
  | .state _ | .newSignal _ | .newRoot | .read _ _ | .cellAlive _ | .ownerAlive _ | .currentOwner | .tracking => True

def Program.Suits {α : Type} : Part → Program P σ ν α → Prop
  | _, .done _ => True
  | _, .fault _ => True
  | part, .command c next => c.Suits cast part ∧ ∀ answer, (next answer).Suits part
  | part, .within setting body next => body.Suits (part.within setting) ∧ ∀ answer, (next answer).Suits part
  | part, .update cell body next =>
    part = .parting ∧ cell ∈ cast.written ∧ (∀ old, (body old).Suits part) ∧ next.Suits part

def Cast.Fits (meaning : Interpretation P σ ν) : Prop :=
  ∀ (part : Part) {ι : Type} (task : P ι), cast.plays part task → (meaning task).Suits cast part

variable {cast} {part : Part} {α β : Type}

theorem Program.Suits.bind {program : Program P σ ν α} {next : α → Program P σ ν β} (one : program.Suits cast part)
    (two : ∀ answer, (next answer).Suits cast part) : (program >>= next).Suits cast part := by
  induction program with
  | done result => exact two result
  | fault => trivial
  | command _ _ ih | within _ _ _ _ ih => exact ⟨one.1, fun answer => ih answer (one.2 answer) two⟩
  | update _ _ _ _ ih => exact ⟨one.1, one.2.1, one.2.2.1, ih one.2.2.2 two⟩

theorem Program.suits_perform {command : Command P σ ν α} (suits : command.Suits cast part) :
    (Program.perform command).Suits cast part := ⟨suits, fun _ => trivial⟩

theorem Program.suits_get (tracked : Bool) (cell : CellId) :
    (Program.get tracked cell : Program P σ ν ν).Suits cast part := by
  have reads : (Command.read tracked cell : Command P σ ν (Option ν)).Suits cast part := trivial
  exact (Program.suits_perform reads).bind fun answer => by cases answer <;> trivial

end Casts

section Stages

variable {e : OwnerId}

structure Stage (P : Type → Type) (σ ν : Type) where
  /-- The state in which reactions have begun to get their turns. -/
  base : State P σ ν
  special : Option OwnerId
  /-- Owners that stay. -/
  spared : Set OwnerId
  /-- New reactions that have not begun yet. -/
  pending : Set OwnerId
  /-- Who waits. -/
  queue : List OwnerId
  owner : Option OwnerId
  observer : Option OwnerId
  /-- Whether the special reaction may be cleaned. -/
  loud : Prop
  /-- Whether the special reaction has not read what its cleanups write. -/
  deaf : Prop

variable {cast : Cast P} {stage : Stage P σ ν} {state next : State P σ ν}

def Part.of (special : Option OwnerId) (e : OwnerId) : Part := if special = some e then .own else .other

def Stage.Over (stage : Stage P σ ν) (state : State P σ ν) : Prop :=
  ∃ e, stage.special = some e ∧ state.graph.ownerAlive e = false

structure Cast.Covers (cast : Cast P) (special : Option OwnerId) (e : OwnerId) (o : Owner P ν) : Prop where
  body : ∀ body, o.body = some body → ∃ task, body = .effect task ∧ cast.plays (.of special e) task
  cleanups : ∀ task ∈ o.cleanups, cast.plays .other task ∨ special = some e ∧ cast.plays .parting task

structure Stage.Acting (stage : Stage P σ ν) (cast : Cast P) (state : State P σ ν) : Prop where
  flushing : state.graph.flushing = true
  owner_eq : state.graph.owner = stage.owner
  observer_eq : state.graph.observer = stage.observer
  counted : state.graph.Counted
  since : stage.base.graph.nextId ≤ state.graph.nextId
  special_old : ∀ e, stage.special = some e → e < stage.base.graph.nextId
  disposes : cast.disposes → stage.spared = ∅
  stays : ∀ e ∈ stage.spared, state.graph.ownerAlive e = true
  apart : ∀ p q, state.graph.owners.get? p = some q → p ∉ stage.spared → ∀ e ∈ q.children, e ∉ stage.spared
  casts : ∀ e o, state.graph.owners.get? e = some o → cast.Covers stage.special e o
  unborn : ∀ e, state.graph.nextId ≤ e → state.starts e = stage.base.starts e
  fresh : ∀ e o, state.graph.owners.get? e = some o → stage.base.graph.nextId ≤ e → o.body.isSome → e ∉ stage.pending →
    state.starts e = stage.base.starts e + 1
  sorted : state.graph.queue.Pairwise (· < ·)
  kept : ∀ e ∈ stage.queue, e < stage.base.graph.nextId → state.graph.ownerAlive e = true → e ∈ state.graph.queue
  shrinks : ¬ stage.loud → state.graph.queue.Sublist stage.queue ∨ stage.Over state
  unheard : stage.deaf → ∀ e, stage.special = some e → stage.observer ≠ some e ∧
    (∀ c ∈ cast.written, ∀ slot, state.graph.cells.get? c = some slot → e ∉ slot.subscribers) ∧
    (e ∈ state.graph.queue → e ∈ stage.queue)

/-- A change that neither makes nor ends nor queues anybody; cleanups come only from what is allowed. -/
structure Graph.Gentle (allowed : OwnerId → P Unit → Prop) (graph next : Graph P ν) : Prop where
  nextId_le : graph.nextId ≤ next.nextId
  flushing_eq : next.flushing = graph.flushing
  owner_eq : next.owner = graph.owner
  observer_eq : next.observer = graph.observer
  queue_eq : next.queue = graph.queue
  alive_eq : ∀ e, next.ownerAlive e = graph.ownerAlive e
  owners : ∀ e o, next.owners.get? e = some o → ∃ old, graph.owners.get? e = some old ∧ o.body = old.body ∧
    (∀ child ∈ o.children, child ∈ old.children) ∧ ∀ task ∈ o.cleanups, task ∈ old.cleanups ∨ allowed e task
  cells : ∀ c slot, next.cells.get? c = some slot → ∀ e ∈ slot.subscribers, graph.observer = some e ∨
    ∃ old, graph.cells.get? c = some old ∧ e ∈ old.subscribers

theorem Stage.Acting.gentle {allowed : OwnerId → P Unit → Prop} (acting : stage.Acting cast state)
    (gentle : state.graph.Gentle allowed next.graph) (starts : ∀ e, next.starts e = state.starts e)
    (suits : ∀ e task, allowed e task → cast.plays .other task ∨ stage.special = some e ∧ cast.plays .parting task) :
    stage.Acting cast next where
  flushing := gentle.flushing_eq.trans acting.flushing
  owner_eq := gentle.owner_eq.trans acting.owner_eq
  observer_eq := gentle.observer_eq.trans acting.observer_eq
  counted := by
    refine acting.counted.fewer gentle.nextId_le fun p q found => ?_
    obtain ⟨old, there, _, kept, _⟩ := gentle.owners p q found
    exact ⟨old, there, kept⟩
  since := acting.since.trans gentle.nextId_le
  special_old := acting.special_old
  disposes := acting.disposes
  stays e mem := (gentle.alive_eq e).trans (acting.stays e mem)
  apart p q found loose e mem := by
    obtain ⟨old, there, _, kept, _⟩ := gentle.owners p q found
    exact acting.apart p old there loose e (kept e mem)
  casts e o found := by
    obtain ⟨old, there, body, _, cleanups⟩ := gentle.owners e o found
    have before := acting.casts e old there
    exact ⟨fun what same => before.body what (body ▸ same),
      fun task mem => (cleanups task mem).elim (before.cleanups task) (suits e task)⟩
  unborn e above := (starts e).trans (acting.unborn e (gentle.nextId_le.trans above))
  fresh e o found new acts begun := by
    obtain ⟨old, there, body, _⟩ := gentle.owners e o found
    exact (starts e).trans (acting.fresh e old there new (body ▸ acts) begun)
  sorted := gentle.queue_eq ▸ acting.sorted
  kept e mem old alive := gentle.queue_eq ▸ acting.kept e mem old ((gentle.alive_eq e).symm.trans alive)
  shrinks quiet := by
    rw [gentle.queue_eq]
    refine (acting.shrinks quiet).imp id fun ⟨e, same, gone⟩ => ⟨e, same, (gentle.alive_eq e).trans gone⟩
  unheard deaf e same := by
    obtain ⟨away, unread, waits⟩ := acting.unheard deaf e same
    refine ⟨away, fun c written slot found mem => ?_, gentle.queue_eq ▸ waits⟩
    rcases gentle.cells c slot found e mem with current | ⟨old, there, before⟩
    · exact away (acting.observer_eq.symm.trans current)
    · exact unread c written old there before

def noCleanup (_ : OwnerId) (_ : P Unit) : Prop := False

theorem Stage.Acting.mild (acting : stage.Acting cast state) (gentle : state.graph.Gentle noCleanup next.graph)
    (starts : ∀ e, next.starts e = state.starts e) : stage.Acting cast next :=
  acting.gentle gentle starts fun _ _ => False.elim

variable {allowed : OwnerId → P Unit → Prop} {graph : Graph P ν}

theorem Graph.Gentle.refl (graph : Graph P ν) : graph.Gentle allowed graph :=
  ⟨le_rfl, rfl, rfl, rfl, rfl, fun _ => rfl, fun _ o found => ⟨o, found, rfl, fun _ => id, fun _ => .inl⟩,
    fun _ slot found _ mem => .inr ⟨slot, found, mem⟩⟩

theorem Graph.Gentle.modifyOwner (graph : Graph P ν) (e : OwnerId) {change : Owner P ν → Owner P ν}
    (body : ∀ o, (change o).body = o.body) (children : ∀ o, ∀ child ∈ (change o).children, child ∈ o.children)
    (cleanups : ∀ o, ∀ task ∈ (change o).cleanups, task ∈ o.cleanups ∨ allowed e task) :
    graph.Gentle allowed { graph with owners := graph.owners.modify e change } := by
  refine { (.refl graph : graph.Gentle allowed graph) with alive_eq := fun x => ?_, owners := fun x o found => ?_ }
  · simp only [ownerAlive, Table.contains, Table.get?_modify_eq_map, isSome_map]
  · rw [Table.get?_modify_eq_map] at found
    obtain ⟨old, there, rfl⟩ := map_eq_some_iff.mp found
    refine ⟨old, there, ?_⟩
    split
    · subst x
      exact ⟨body old, children old, cleanups old⟩
    · exact ⟨rfl, fun _ => id, fun _ => .inl⟩

theorem Graph.Gentle.ofCells {cells : Table (Cell ν)} (kept : ∀ c slot, cells.get? c = some slot → ∀ e ∈ slot.subscribers,
    graph.observer = some e ∨ ∃ old, graph.cells.get? c = some old ∧ e ∈ old.subscribers) :
    graph.Gentle allowed { graph with cells } :=
  { (.refl graph : graph.Gentle allowed graph) with cells := kept }

section

variable (graph)

theorem Graph.Gentle.modifyCell (c : CellId) {change : Cell ν → Cell ν}
    (same : ∀ slot, (change slot).subscribers = slot.subscribers) :
    graph.Gentle allowed { graph with cells := graph.cells.modify c change } := by
  refine .ofCells fun other slot found e mem => .inr ?_
  obtain ⟨old, before, rfl | rfl⟩ := get?_modify_some found
  · exact ⟨old, before, same old ▸ mem⟩
  · exact ⟨slot, before, mem⟩

theorem Graph.Gentle.resetOwner (e : OwnerId) : graph.Gentle allowed (graph.resetOwner e) :=
  .modifyOwner graph e (fun _ => rfl) (by simp) (by simp)

theorem Graph.Gentle.addCleanup (task : P Unit) :
    graph.Gentle (fun e added => graph.owner = some e ∧ added = task) (graph.addCleanup task) := by
  unfold Graph.addCleanup
  split
  · exact .refl graph
  · rename_i owner current
    refine .modifyOwner graph owner (fun _ => rfl) (fun _ _ => id) fun o added mem => ?_
    exact (mem_append.mp mem).imp id fun last => ⟨current, mem_singleton.mp last⟩

theorem Graph.Gentle.release (e : OwnerId) (sources dropped : List CellId) :
    graph.Gentle allowed (graph.release e sources dropped) := by
  refine .ofCells fun c slot found x mem => .inr ?_
  rw [get?_eraseAll] at found
  split at found
  · cases found
  · obtain ⟨old, before, _, fewer, _⟩ := unsubscribed_get? graph.cells sources e found
    exact ⟨old, before, fewer x mem⟩

theorem Graph.Gentle.newCell (value : Option ν) : graph.Gentle allowed (graph.newCell value).2 := by
  have cells : ∀ c slot, (graph.newCell value).2.cells.get? c = some slot → ∀ e ∈ slot.subscribers,
      graph.observer = some e ∨ ∃ old, graph.cells.get? c = some old ∧ e ∈ old.subscribers := by
    intro c slot found e mem
    simp only [Graph.newCell, get?_insert] at found
    split at found
    · obtain rfl := some.inj found
      simp at mem
    · exact .inr ⟨slot, found, mem⟩
  have owners : graph.Gentle allowed { graph with owners := (graph.newCell value).2.owners } := by
    unfold Graph.newCell
    split
    · exact .refl graph
    · exact .modifyOwner graph _ (fun _ => rfl) (fun _ _ => id) fun _ _ => .inl
  exact ⟨Nat.le_succ _, rfl, rfl, rfl, rfl, owners.alive_eq, owners.owners, cells⟩

theorem Graph.Gentle.track (cell : CellId) : graph.Gentle allowed (graph.track cell) := by
  unfold Graph.track
  split
  · exact .refl graph
  · rename_i observer current
    split
    · have owners : graph.Gentle allowed { graph with owners := graph.owners.modify observer fun o =>
          { o with sources := if o.sources.contains cell then o.sources else cell :: o.sources } } :=
        .modifyOwner graph observer (fun _ => rfl) (fun _ _ => id) fun _ _ => .inl
      refine { owners with cells := fun c slot found e mem => ?_ }
      obtain ⟨old, before, rfl | rfl⟩ := get?_modify_some found
      · rcases (mem_insertSorted observer e old.subscribers).mp mem with rfl | mem
        · exact .inl current
        · exact .inr ⟨old, before, mem⟩
      · exact .inr ⟨slot, before, mem⟩
    · exact .refl graph

theorem Graph.alive_newOwner (parent : Option OwnerId) (body : Option (Body P ν)) (e : OwnerId) :
    (graph.newOwner parent body).2.ownerAlive e = (decide (e = graph.nextId) || graph.ownerAlive e) := by
  simp only [ownerAlive, Table.contains, owners_newOwner, isSome_map]
  split <;> simp [*]

end

theorem Graph.there_newOwner {parent : Option OwnerId} {body : Option (Body P ν)}
    (found : (graph.newOwner parent body).2.owners.get? e = some o) :
    (e = graph.nextId ∧ o.body = body ∧ o.cleanups = []) ∨
      ∃ old, graph.owners.get? e = some old ∧ o.body = old.body ∧ o.cleanups = old.cleanups := by
  rw [owners_newOwner] at found
  obtain ⟨old, there, rfl⟩ := map_eq_some_iff.mp found
  split at there
  · obtain rfl := some.inj there
    refine .inl ⟨‹_›, ?_⟩
    split <;> exact ⟨rfl, rfl⟩
  · refine .inr ⟨old, there, ?_⟩
    split <;> exact ⟨rfl, rfl⟩

theorem Stage.Over.newOwner (ended : stage.Over state) (acting : stage.Acting cast state) (parent : Option OwnerId)
    (body : Option (Body P ν)) : stage.Over { state with graph := (state.graph.newOwner parent body).2 } := by
  obtain ⟨e, same, gone⟩ := ended
  have old : e ≠ state.graph.nextId := ((acting.special_old e same).trans_le acting.since).ne
  exact ⟨e, same, by simp [alive_newOwner, gone, old]⟩

theorem Stage.Acting.newOwner (acting : stage.Acting cast state) (parent : Option OwnerId) {body : Option (Body P ν)}
    {pending : Set OwnerId} (more : stage.pending ⊆ pending) (begins : body.isSome → state.graph.nextId ∈ pending)
    (suits : ∀ what, body = some what → ∃ task, what = .effect task ∧ cast.plays .other task) :
    { stage with pending }.Acting cast { state with graph := (state.graph.newOwner parent body).2 } :=
  { acting with
    counted := acting.counted.newOwner parent body
    since := acting.since.trans (Nat.le_succ _)
    stays := fun e mem => by simp [alive_newOwner, acting.stays e mem]
    apart := fun p q found loose e mem spared => by
      rcases listed_newOwner found mem with rfl | ⟨old, there, mem⟩
      · obtain ⟨o, there⟩ := isSome_iff_exists.mp (acting.stays _ spared)
        exact lt_irrefl _ (acting.counted.owners _ o there)
      · exact acting.apart p old there loose e mem spared
    casts := fun e o found => by
      rcases there_newOwner found with ⟨rfl, same, none⟩ | ⟨old, there, body, cleanups⟩
      · have plain : Part.of stage.special state.graph.nextId = .other :=
          if_neg fun same => lt_irrefl _ ((acting.special_old _ same).trans_le acting.since)
        refine ⟨fun what is => ?_, by simp [none]⟩
        exact plain ▸ suits what (same.symm.trans is)
      · have before := acting.casts e old there
        exact ⟨fun what same => before.body what (body ▸ same), fun task mem => before.cleanups task (cleanups ▸ mem)⟩
    unborn := fun e above => acting.unborn e (Nat.le_of_succ_le above)
    fresh := fun e o found new acts begun => by
      rcases there_newOwner found with ⟨rfl, same, _⟩ | ⟨old, there, body, _⟩
      · exact absurd (begins (same ▸ acts)) begun
      · exact acting.fresh e old there new (body ▸ acts) fun mem => begun (more mem)
    kept := fun e mem old alive => by
      refine acting.kept e mem old ?_
      have apart : e ≠ state.graph.nextId := (old.trans_le acting.since).ne
      simpa [alive_newOwner, apart] using alive
    shrinks := fun quiet => (acting.shrinks quiet).imp id fun gone => gone.newOwner acting parent body }

theorem Stage.Acting.eraseOwner {e : OwnerId} (acting : stage.Acting cast state) (loose : e ∉ stage.spared) :
    stage.Acting cast { state with graph := state.graph.eraseOwner e } := by
  have before : ∀ x o, (state.graph.eraseOwner e).owners.get? x = some o → ∃ old, state.graph.owners.get? x = some old ∧
      o.body = old.body ∧ o.cleanups = old.cleanups := by
    intro x o found
    rw [owners_erased] at found
    split at found
    · cases found
    · obtain ⟨old, there, rfl⟩ := map_eq_some_iff.mp found
      refine ⟨old, there, ?_⟩
      split <;> exact ⟨rfl, rfl⟩
  have fewer : state.graph.Fewer (state.graph.eraseOwner e) := .eraseOwner state.graph e
  exact { acting with
    counted := acting.counted.eraseOwner e
    stays := fun x mem => by
      have apart : x ≠ e := fun same => loose (same ▸ mem)
      simp [alive_eraseOwner, apart, acting.stays x mem]
    apart := fun p q found free x mem => by
      obtain ⟨old, there, kept⟩ := fewer.owners p q found
      exact acting.apart p old there free x (kept x mem)
    casts := fun x o found => by
      obtain ⟨old, there, body, cleanups⟩ := before x o found
      have suits := acting.casts x old there
      exact ⟨fun what same => suits.body what (body ▸ same), fun task mem => suits.cleanups task (cleanups ▸ mem)⟩
    fresh := fun x o found new acts begun => by
      obtain ⟨old, there, body, _⟩ := before x o found
      exact acting.fresh x old there new (body ▸ acts) begun
    sorted := acting.sorted.filter _
    kept := fun x mem old alive => by
      simp only [alive_eraseOwner, Bool.and_eq_true, decide_eq_true_eq] at alive
      exact mem_filter.mpr ⟨acting.kept x mem old alive.2, by simpa using alive.1⟩
    shrinks := fun quiet => by
      refine (acting.shrinks quiet).imp (fun less => filter_sublist.trans less) fun ⟨x, same, gone⟩ => ?_
      exact ⟨x, same, by simp [alive_eraseOwner, gone]⟩
    unheard := fun deaf x same => by
      obtain ⟨away, unread, waits⟩ := acting.unheard deaf x same
      exact ⟨away, unread, fun mem => waits (mem_filter.mp mem).1⟩ }

theorem Stage.Acting.parted (stage : Stage P σ ν) (acting : { stage with loud := True }.Acting cast state)
    (gone : stage.Over state) : stage.Acting cast state :=
  { acting with shrinks := fun _ => .inr gone }

section

variable (acting : stage.Acting cast state)
include acting

theorem Stage.Acting.louder : { stage with loud := True }.Acting cast state :=
  { acting with shrinks := fun quiet => absurd trivial quiet }

theorem Stage.Acting.enqueue (loud : stage.loud) (written : cell ∈ cast.written) :
    stage.Acting cast { state with graph := state.graph.enqueueSubscribers cell } := by
  unfold enqueueSubscribers
  split
  · exact acting
  · rename_i slot found
    exact { acting with
      counted := ⟨acting.counted.owners, acting.counted.children⟩
      sorted := pairwise_foldl_insertSorted acting.sorted
      kept := fun e mem old alive => (mem_foldl_insertSorted _ _ _).mpr (.inr (acting.kept e mem old alive))
      shrinks := fun quiet => absurd loud quiet
      unheard := fun deaf e same => by
        obtain ⟨away, unread, waits⟩ := acting.unheard deaf e same
        refine ⟨away, unread, fun mem => ?_⟩
        exact waits (((mem_foldl_insertSorted _ _ _).mp mem).resolve_left (unread cell written slot found)) }

theorem Stage.Acting.batch (batchDepth : Nat) :
    stage.Acting cast { state with graph := { state.graph with batchDepth } } :=
  { acting with counted := ⟨acting.counted.owners, acting.counted.children⟩ }

theorem Stage.Acting.context (owner observer : Option OwnerId)
    (away : stage.deaf → ∀ e, stage.special = some e → observer ≠ some e) :
    { stage with owner, observer }.Acting cast { state with graph := { state.graph with owner, observer } } :=
  { acting with
    counted := ⟨acting.counted.owners, acting.counted.children⟩
    owner_eq := rfl
    observer_eq := rfl
    unheard := fun deaf e same => ⟨away deaf e same, (acting.unheard deaf e same).2⟩ }

end

theorem Stage.Acting.began (stage : Stage P σ ν) {e : OwnerId}
    (acting : { stage with pending := insert e stage.pending }.Acting cast state) (old : e < state.graph.nextId)
    (first : e ∉ stage.pending → stage.base.graph.nextId ≤ e → state.starts e = stage.base.starts e) :
    stage.Acting cast { state with history := .began e :: state.history } := by
  have others : ∀ x, x ≠ e → count (.began x) (.began e :: state.history) = state.starts x := fun x apart =>
    count_cons_of_ne fun same => apart (Happening.began.inj same).symm
  exact { acting with
    unborn := fun x above => (others x (old.trans_le above).ne').trans (acting.unborn x above)
    fresh := fun x o found new acts begun => by
      by_cases same : x = e
      · subst same
        exact count_cons_self.trans (congrArg Nat.succ (first begun new))
      · exact (others x same).trans (acting.fresh x o found new acts fun mem => mem.elim same begun) }

theorem Stage.Acting.settle (acting : { stage with pending := insert e stage.pending }.Acting cast state)
    (idle : ∀ o, state.graph.owners.get? e = some o → o.body = none) : stage.Acting cast state :=
  { acting with
    fresh := fun x o found new acts begun => by
      refine acting.fresh x o found new acts fun mem => mem.elim (fun same => ?_) begun
      subst same
      simp [idle o found] at acts }

variable (acting : stage.Acting cast state)
include acting

theorem Stage.Acting.awaiting (e : OwnerId) : { stage with pending := insert e stage.pending }.Acting cast state :=
  { acting with fresh := fun x o found new acts begun => acting.fresh x o found new acts fun mem => begun (.inr mem) }

theorem Stage.Acting.requeue (loud : Prop) : { stage with queue := state.graph.queue, loud }.Acting cast state :=
  { acting with
    kept := fun _ mem _ _ => mem
    shrinks := fun _ => .inl (Sublist.refl _)
    unheard := fun deaf e same => ⟨(acting.unheard deaf e same).1, (acting.unheard deaf e same).2.1, id⟩ }

theorem Stage.Acting.sparing (spared : Set OwnerId) (disposes : cast.disposes → spared = ∅)
    (stays : ∀ e ∈ spared, state.graph.ownerAlive e = true)
    (apart : ∀ p q, state.graph.owners.get? p = some q → p ∉ spared → ∀ e ∈ q.children, e ∉ spared) :
    { stage with spared }.Acting cast state :=
  { acting with disposes, stays, apart }

theorem Stage.Acting.pop {first : OwnerId} {rest : List OwnerId} (waiting : state.graph.queue = first :: rest)
    (loud : Prop) : { stage with queue := rest, loud }.Acting cast (state.withQueue rest) :=
  { acting with
    counted := ⟨acting.counted.owners, acting.counted.children⟩
    sorted := (pairwise_cons.mp (waiting ▸ acting.sorted)).2
    kept := fun _ mem _ _ => mem
    shrinks := fun _ => .inl (Sublist.refl _)
    unheard := fun deaf e same => ⟨(acting.unheard deaf e same).1, (acting.unheard deaf e same).2.1, id⟩ }

end Stages

section Runs

variable {α β : Type} {cast : Cast P} {stage : Stage P σ ν} {part : Part} {self : Runner P σ ν}
variable {body : Run P σ ν α} {e : OwnerId} {before : State P σ ν → Prop} {task : P Unit}

def Stage.Permits (stage : Stage P σ ν) : Part → Prop
  | .other => True
  | .own => ∃ e, stage.special = some e ∧ stage.owner = some e
  | .parting => stage.loud

def Plays (cast : Cast P) (part : Part) (run : Run P σ ν α) : Prop :=
  ∀ stage : Stage P σ ν, stage.Permits part → Leads (stage.Acting cast) run (stage.Acting cast)

def Stage.Loose (stage : Stage P σ ν) (e : OwnerId) (state : State P σ ν) : Prop :=
  ∀ o, state.graph.owners.get? e = some o → ∀ child ∈ o.children, child ∉ stage.spared

structure Stage.Turn (stage : Stage P σ ν) (cast : Cast P) (e : OwnerId) (state : State P σ ν) : Prop where
  acting : { stage with pending := insert e stage.pending }.Acting cast state
  loose : stage.Loose e state
  first : e ∉ stage.pending → stage.base.graph.nextId ≤ e → state.starts e = stage.base.starts e

structure PlaysAll (cast : Cast P) (runner : Runner P σ ν) : Prop where
  perform : ∀ {part : Part} {ι : Type} (task : P ι), cast.plays part task → Plays cast part (runner (.perform task))
  dispose : ∀ (stage : Stage P σ ν) (e : OwnerId), e ∉ stage.spared →
    Leads (stage.Acting cast) (runner (.dispose e)) (stage.Acting cast)
  rerun : ∀ (stage : Stage P σ ν) (e : OwnerId), stage.special ≠ some e →
    Leads (stage.Turn cast e) (runner (.rerun e)) (stage.Acting cast)

theorem Plays.pure (value : α) : Plays cast part (Pure.pure value : Run P σ ν α) := fun _ _ => Leads.pure value

theorem Plays.rules : RunRules fun (run : Run P σ ν _) _ => Plays cast part run :=
  .all fun stage => .all fun _ => Leads.rules (stage.Acting cast)

theorem Plays.bind {first : Run P σ ν α} {after : α → Run P σ ν β} (one : Plays cast part first)
    (two : ∀ value, Plays cast part (after value)) : Plays cast part (first >>= after) :=
  fun stage permits => (one stage permits).bind fun value => two value stage permits

theorem Leads.mild {change : Graph P ν → Graph P ν} (gentle : ∀ graph : Graph P ν, graph.Gentle noCleanup (change graph))
    (grows : ∀ graph : Graph P ν, graph.Grows (change graph))
    (depth : ∀ graph : Graph P ν, (change graph).batchDepth = graph.batchDepth) :
    Leads (stage.Acting cast) (alterGraph change : Run P σ ν Unit) (stage.Acting cast) :=
  alter fun state acting => ⟨acting.mild (gentle state.graph) fun _ => rfl, grows _, (gentle _).flushing_eq, depth _⟩

theorem Leads.unflushed : Leads (stage.Acting cast) (Run.flush self) (stage.Acting cast) := by
  intro state result next acting ok
  obtain ⟨_, _, here, ok⟩ := bind_ok ok
  cases here
  rw [if_pos acting.flushing] at ok
  cases ok
  exact ⟨acting, .refl _⟩

theorem Plays.notify (written : cell ∈ cast.written) : Plays cast .parting (notify self cell) := by
  refine Plays.rules.notify self self (fun stage loud => alter fun state acting => ⟨acting.enqueue loud written, ?_⟩)
    fun _ _ => unflushed
  unfold enqueueSubscribers
  split
  · exact .refl state
  · exact ⟨⟨le_rfl, fun _ owner found => .inr ⟨owner, found, rfl⟩⟩, rfl, rfl⟩

theorem Plays.note {happening : Happening} (silent : ∀ e, happening ≠ .began e) :
    Plays cast part (note happening : Run P σ ν Unit) := by
  intro stage permits state result next acting ok
  cases ok
  exact ⟨acting.mild (.refl _) fun e => count_cons_of_ne (silent e), .refl _, rfl, rfl⟩

theorem Plays.store (cell : CellId) (value : ν) : Plays cast part (store cell value : Run P σ ν Unit) := by
  refine Plays.bind (fun stage _ => ?_) fun _ => .note (by simp)
  exact mild (fun graph => .modifyCell graph cell fun _ => rfl)
    (fun _ => ⟨le_rfl, fun _ owner found => .inr ⟨owner, found, rfl⟩⟩) fun _ => rfl

theorem Plays.write (written : cell ∈ cast.written) (value : ν) : Plays cast .parting (write self cell value) :=
  Plays.rules.write self self ((Plays.store cell value).bind fun _ => .notify written)

theorem Plays.updateCell (written : cell ∈ cast.written) {body : ν → Run P σ ν ν}
    (plays : ∀ old, Plays cast .parting (body old)) : Plays cast .parting (updateCell self cell body) := by
  have marks : ∀ {inUse}, Plays cast .parting (alterGraph (·.setInUse cell inUse) : Run P σ ν Unit) := fun {_} _ _ =>
    mild (fun graph => .modifyCell graph cell fun _ => rfl)
      (fun _ => ⟨le_rfl, fun _ owner found => .inr ⟨owner, found, rfl⟩⟩) fun _ => rfl
  exact Plays.rules.updateCell self self body body fun old => marks.bind fun _ => (plays old).bind fun value =>
    (Plays.store cell value).bind fun _ => marks.bind fun _ => .notify written

theorem Leads.inTurn {opened : State P σ ν → Prop} (leads : Leads opened body (stage.Acting cast))
    (enter : ∀ state, before state →
      opened { state with graph := { state.graph with batchDepth := state.graph.batchDepth + 1 } }) :
    Leads before (Run.inBatch self body) (stage.Acting cast) :=
  batch leads unflushed enter
    (fun _ acting => acting.batch _) fun _ acting _ => acting

theorem Leads.elsewhere {owner observer : Option OwnerId}
    (leads : Leads ({ stage with owner, observer }.Acting cast) body ({ stage with owner, observer }.Acting cast))
    (away : stage.deaf → ∀ e, stage.special = some e → observer ≠ some e) :
    Leads (stage.Acting cast) (Run.inContext owner observer body) (stage.Acting cast) := by
  refine context leads (fun state acting => acting.context owner observer away) fun state mem before _ after => ?_
  have back := after.context state.graph.owner state.graph.observer fun deaf e same current =>
    (before.unheard deaf e same).1 (before.observer_eq.symm.trans current)
  rw [before.owner_eq, before.observer_eq] at back ⊢
  exact back

theorem Leads.forM_of_mem {γ : Type} {step : γ → Run P σ ν Unit} {items : List γ}
    (leads : ∀ item ∈ items, Leads before (step item) before) : Leads before (items.forM step) before := by
  induction items with
  | nil => exact pure ()
  | cons item _ ih =>
    exact (leads item mem_cons_self).bind fun _ => ih fun other mem => leads other (mem_cons_of_mem _ mem)

theorem Leads.cleaned (all : PlaysAll cast self) (e : OwnerId) (loud : stage.special = some e → stage.loud) :
    Leads (fun state => stage.Acting cast state ∧ stage.Loose e state) (clean self e) (stage.Acting cast) := by
  refine see fun found => ?_
  cases found with
  | none => exact (pure ()).mono (fun _ holds => holds.1.1) fun _ => id
  | some owner =>
    rintro state result final ⟨⟨acting, loose⟩, found⟩ ok
    have cleanups : ∀ task ∈ owner.cleanups.reverse, Leads (stage.Acting cast) (self (.perform task)) (stage.Acting cast) := by
      intro task mem
      rcases (acting.casts e owner found).cleanups task (mem_reverse.mp mem) with plain | ⟨same, parting⟩
      · exact all.perform task plain stage trivial
      · exact all.perform task parting stage (loud same)
    have cleans : Leads (stage.Acting cast) (do
        alterGraph (·.resetOwner e)
        owner.children.reverse.forM fun child => self (.dispose child)
        owner.cleanups.reverse.forM fun task => self (.perform task)
        alterGraph (·.release e owner.sources owner.cells)) (stage.Acting cast) := by
      refine bind (mild (fun graph => .resetOwner graph e)
        (fun graph => (Quiet.resetOwner graph e : Quiet ∅ _ _).grows) fun _ => rfl) fun _ => ?_
      refine (forM_of_mem fun child mem => all.dispose stage child ?_).bind fun _ => ?_
      · exact loose owner found child (mem_reverse.mp mem)
      · refine (forM_of_mem cleanups).bind fun _ =>
          mild (fun graph => .release graph e _ _) (fun graph => ?_) fun _ => rfl
        exact (Quiet.release graph (Set.mem_univ e) owner.sources owner.cells).grows
    exact cleans state result final acting ok

theorem Leads.disposed (all : PlaysAll cast self) (loose : e ∉ stage.spared) :
    Leads (stage.Acting cast) (dispose self e) (stage.Acting cast) := by
  have erases : ∀ stage : Stage P σ ν, e ∉ stage.spared → Leads (stage.Acting cast)
      (alterGraph (·.eraseOwner e) : Run P σ ν Unit)
      fun state => stage.Acting cast state ∧ state.graph.ownerAlive e = false := by
    intro stage loose
    refine alter fun state acting =>
      ⟨⟨acting.eraseOwner loose, ?_⟩, (Quiet.eraseOwner state.graph e : Quiet ∅ _ _).grows, rfl, rfl⟩
    simp [alive_eraseOwner]
  have cleans : ∀ stage : Stage P σ ν, e ∉ stage.spared → (stage.special = some e → stage.loud) →
      Leads (stage.Acting cast) (clean self e) (stage.Acting cast) := fun stage loose loud =>
    (cleaned all e loud).mono (fun state acting => ⟨acting, fun o found => acting.apart e o found loose⟩) fun _ => id
  by_cases special : stage.special = some e
  · have cleaned : Leads (stage.Acting cast) (clean self e) ({ stage with loud := True }.Acting cast) :=
      (cleans { stage with loud := True } loose fun _ => trivial).mono (fun _ acting => acting.louder) fun _ => id
    have erased : Leads ({ stage with loud := True }.Acting cast) (alterGraph (·.eraseOwner e) : Run P σ ν Unit)
        (stage.Acting cast) :=
      (erases { stage with loud := True } loose).mono (fun _ => id) fun state holds => .parted stage holds.1 ⟨e, special, holds.2⟩
    exact cleaned.bind fun _ => erased
  · exact (cleans stage loose fun same => absurd same special).bind fun _ =>
      (erases stage loose).mono (fun _ => id) fun _ => And.left

theorem Leads.turned [BEq ν] (all : PlaysAll cast self) (going : Going self) (plain : stage.special ≠ some e) :
    Leads (stage.Turn cast e) (Run.rerun self e) (stage.Acting cast) := by
  refine Leads.see fun found => ?_
  cases found with
  | none =>
    refine (Leads.pure ()).mono (fun state holds => holds.1.acting.settle fun o there => ?_) fun _ => id
    simp [holds.2] at there
  | some owner =>
    rintro state _ _ ⟨turn, found⟩ ok
    cases what : owner.body with
    | none =>
      simp only [bind_some, what] at ok
      cases ok
      refine ⟨turn.acting.settle fun o there => ?_, .refl _⟩
      exact some.inj (found.symm.trans there) ▸ what
    | some body =>
      simp only [bind_some, what] at ok
      obtain ⟨task, rfl, plays⟩ := (turn.acting.casts e owner found).body body what
      rw [Part.of, if_neg plain] at plays
      have old := turn.acting.counted.owners e owner found
      obtain ⟨_, cleaned, here, ok⟩ := bind_ok ok
      have ends := Went.passes ((going.clean e turn.acting.counted).1)
      rw [here] at ends
      have still : cleaned.starts e = state.starts e := ends.held (.inl turn.acting.flushing) e old (Set.notMem_empty e)
      have cleans : Leads (fun state => { stage with pending := insert e stage.pending }.Acting cast state ∧ stage.Loose e state)
          (Run.clean self e) ({ stage with pending := insert e stage.pending }.Acting cast) :=
        Leads.cleaned all e fun same => absurd same plain
      obtain ⟨acting, follows⟩ := cleans _ _ _ ⟨turn.acting, turn.loose⟩ here
      obtain ⟨_, begun, here, ok⟩ := bind_ok ok
      cases here
      have begun := Stage.Acting.began stage acting (old.trans_le follows.grows.nextId_le)
        fun waits new => still.trans (turn.first waits new)
      obtain ⟨acting, onward⟩ := Leads.elsewhere
        (all.perform task plays { stage with owner := some e, observer := some e } trivial)
        (fun _ x same current => plain (some.inj current ▸ same)) _ _ _ begun ok
      exact ⟨acting, follows.trans { onward with }⟩

theorem Plays.newReaction (all : PlaysAll cast self) (plays : cast.plays .other task) :
    Plays cast part (Run.newReaction self (.effect task)) := by
  intro stage _ state result final acting ok
  obtain ⟨_, made, here, ok⟩ := bind_ok ok
  cases here
  have new : ∀ e, stage.special = some e → e ≠ state.graph.nextId := fun e same =>
    ((acting.special_old e same).trans_le acting.since).ne
  have grown : Graph.Grows state.graph (state.graph.newOwner state.graph.owner (some (.effect task))).2 :=
    (Quiet.newOwner state.graph _ _ : Quiet ∅ _ _).grows
  have unlisted : state.graph.nextId ∉ stage.spared := by
    intro mem
    obtain ⟨o, there⟩ := isSome_iff_exists.mp (acting.stays _ mem)
    exact lt_irrefl _ (acting.counted.owners _ o there)
  have made := acting.newOwner state.graph.owner (Set.subset_insert state.graph.nextId stage.pending)
    (fun _ => Set.mem_insert _ _) fun what same => ⟨task, (some.inj same).symm, plays⟩
  have turn : stage.Turn cast state.graph.nextId
      { state with graph := (state.graph.newOwner state.graph.owner (some (.effect task))).2 } :=
    ⟨made, fun o found => made.apart _ o found unlisted, fun _ _ => acting.unborn _ (le_rfl)⟩
  obtain ⟨_, _, here, ok⟩ := bind_ok ok
  cases ok
  have runs : Leads (stage.Turn cast state.graph.nextId) (Run.inBatch self (self (.rerun state.graph.nextId)))
      (stage.Acting cast) :=
    inTurn (all.rerun stage state.graph.nextId fun same => new _ same rfl)
      fun _ turn => ⟨turn.acting.batch _, turn.loose, turn.first⟩
  obtain ⟨acting, onward⟩ := runs _ _ _ turn here
  have follows : Follows state { state with graph := (state.graph.newOwner state.graph.owner (some (.effect task))).2 } :=
    ⟨grown, rfl, rfl⟩
  exact ⟨acting, follows.trans onward⟩

theorem Plays.read (tracked : Bool) (cell : CellId) : Plays cast part (read tracked cell : Run P σ ν (Option ν)) :=
  Plays.rules.read (fun _ _ => mild (fun graph => .track graph cell) (fun graph => .track graph cell)
    fun graph => (graph.track_frame cell).2.2.1) fun _ => .note (by simp)

theorem Plays.onDispose (suits : cast.plays .other task ∨ part = .own ∧ cast.plays .parting task) :
    Plays cast part (alterGraph (·.addCleanup task) : Run P σ ν Unit) := by
  intro stage permits
  refine alter fun state acting => ⟨acting.gentle (.addCleanup state.graph task) (fun _ => rfl) ?_,
    (Quiet.addCleanup state.graph task : Quiet ∅ _ _).grows, ?_, ?_⟩
  · rintro _ _ ⟨current, rfl⟩
    refine suits.imp id fun ⟨own, parting⟩ => ⟨?_, parting⟩
    subst own
    obtain ⟨_, same, owner⟩ := permits
    rw [same, ← owner, ← acting.owner_eq, current]
  · exact (Graph.Gentle.addCleanup state.graph task).flushing_eq
  · show (state.graph.addCleanup task).batchDepth = _
    unfold addCleanup
    split <;> rfl

theorem Plays.command (all : PlaysAll cast self) {ι : Type} {command : Command P σ ν ι} (suits : command.Suits cast part) :
    Plays cast part (Run.command self command) := by
  cases command with
  | state =>
    intro stage permits state result next acting ok
    cases ok
    exact ⟨acting.mild (.refl _) fun _ => rfl, .refl _, rfl, rfl⟩
  | call task => exact all.perform task suits
  | newSignal =>
    intro stage permits state result next acting ok
    cases ok
    exact ⟨acting.mild (.newCell _ _) fun _ => rfl, (Quiet.newCell state.graph _ : Quiet ∅ _ _).grows, rfl, rfl⟩
  | newComputed => exact suits.elim
  | newEffect => exact .newReaction all suits
  | newRoot =>
    intro stage permits state result next acting ok
    cases ok
    refine ⟨acting.newOwner none (Set.Subset.refl _) (by simp) (by simp),
      (Quiet.newOwner state.graph none none : Quiet ∅ _ _).grows, rfl, rfl⟩
  | onDispose => exact .onDispose suits
  | dispose =>
    intro stage permits state result next acting ok
    exact disposed all (by simp [acting.disposes suits]) state result next acting ok
  | read tracked cell => exact .read tracked cell
  | write _ value =>
    obtain ⟨rfl, written⟩ := suits
    exact .write written value
  | cellAlive cell => exact Plays.rules.seeGraph (·.cellAlive cell)
  | ownerAlive owner => exact Plays.rules.seeGraph (·.ownerAlive owner)
  | currentOwner => exact Plays.rules.seeGraph owner
  | tracking => exact Plays.rules.seeGraph (·.observer.isSome)

theorem Plays.inSetting (setting : Setting) (plays : Plays cast (part.within setting) body) :
    Plays cast part (Run.inSetting self setting body) := by
  intro stage permits
  cases setting with
  | batch =>
    rw [show part.within .batch = part by cases part <;> rfl] at plays
    exact inTurn (plays stage permits) fun _ acting => acting.batch _
  | untracked =>
    rw [show part.within .untracked = part by cases part <;> rfl] at plays
    intro state result final acting ok
    have inner : { stage with owner := state.graph.owner, observer := none }.Permits part := by
      rw [acting.owner_eq]
      exact permits
    exact elsewhere (plays _ inner) (by simp) state result final acting ok
  | ownedBy owner =>
    have inner : { stage with owner := some owner, observer := none }.Permits (part.within (.ownedBy owner)) := by
      cases part with
      | other => trivial
      | own => trivial
      | parting => exact permits
    exact elsewhere (plays _ inner) (by simp)

theorem Plays.program (all : PlaysAll cast self) {program : Program P σ ν α} (suits : program.Suits cast part) :
    Plays cast part (program.run self) := by
  induction program generalizing part with
  | done result => exact .pure result
  | fault why => exact fun _ _ => throw why
  | command _ _ ih => exact (Plays.command all suits.1).bind fun answer => ih answer (suits.2 answer)
  | within setting _ _ inner ih =>
    exact (Plays.inSetting setting (inner suits.1)).bind fun answer => ih answer (suits.2 answer)
  | update _ _ next inner ih =>
    obtain ⟨rfl, written, bodies, next⟩ := suits
    exact (Plays.updateCell written fun old => inner old (bodies old)).bind fun _ => ih next

theorem PlaysAll.step [BEq ν] {meaning : Interpretation P σ ν} (fits : cast.Fits meaning) (going : Going self)
    (all : PlaysAll cast self) : PlaysAll cast (Job.step meaning self) where
  perform task plays := .program all (fits _ task plays)
  dispose _ _ loose := disposed all loose
  rerun _ _ plain := turned all going plain

theorem PlaysAll.run [BEq ν] {meaning : Interpretation P σ ν} (fits : cast.Fits meaning) (fuel : Nat) :
    PlaysAll cast (Job.run meaning fuel) := by
  induction fuel with
  | zero => exact ⟨fun _ _ _ _ => throw _, fun _ _ _ => throw _, fun _ _ _ => throw _⟩
  | succ fuel ih => exact ih.step fits (Going.run meaning fuel)

theorem Going.begins [BEq ν] (going : Going self) {state next : State P σ ν} (counted : state.graph.Counted)
    (held : state.Held) (found : state.graph.owners.get? e = some o) (acts : o.body.isSome)
    (ok : Run.rerun self e state = .ok () next) :
    next.starts e = state.starts e + 1 ∧ ∀ child ∈ o.children, next.graph.ownerAlive child = false := by
  obtain ⟨body, what⟩ := isSome_iff_exists.mp acts
  rw [Run.rerun, run_see, found, bind_some, what] at ok
  obtain ⟨_, cleaned, here, ok⟩ := bind_ok ok
  obtain ⟨one, killed⟩ := going.clean e counted
  rw [here] at one
  have one : Ends False ∅ state cleaned := one
  obtain ⟨_, _, noted, ok⟩ := bind_ok ok
  cases noted
  let begun : State P σ ν := { cleaned with history := .began e :: cleaned.history }
  have counted' : begun.graph.Counted := one.counted
  have two : Ends False ∅ begun next := ((Goes.runBody going body).inContext (some e) (some e)).ends counted' ok
  have old := counted.owners e o found
  constructor
  · have still : begun.Held := by
      unfold State.Held
      rw [one.flushing_eq, one.batchDepth_eq]
      exact held
    rw [two.held still e (old.trans_le one.nextId_le) (Set.notMem_empty e), ← one.held held e old (Set.notMem_empty e)]
    exact count_cons_self
  · intro child mem
    exact (two.gone child ((counted.children e o found child mem).trans_le one.nextId_le)
      (killed cleaned here o found child mem)).1

end Runs

end LiveMarkup.Reactive
