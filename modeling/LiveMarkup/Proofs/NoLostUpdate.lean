import LiveMarkup.Proofs.RunRules
import Mathlib.Data.Set.Insert
import Mathlib.Tactic.Tauto

/-!
No update is lost: when a run comes to its end, no reaction that is still there has read a value that was replaced
since. While a run goes on, a reaction whose reads are out of date waits in the queue; `Sound` says so, together
with what is needed for it: whoever has read a cell is among its subscribers. Reactions that are being cleaned are
exempt, since they are about to be disposed or to begin anew.
-/

namespace LiveMarkup.Reactive
open List Run Reactive.Graph Option
open Table hiding find?

section History

/-- The latest run of a reaction has read a cell, and `later` has happened since. -/
def ReadBefore (history : List Happening) (reaction : OwnerId) (cell : CellId) (later : List Happening) : Prop :=
  ∃ earlier, history = later ++ .read reaction cell :: earlier ∧ .began reaction ∉ later

def HasRead (history : List Happening) (reaction : OwnerId) (cell : CellId) : Prop :=
  ∃ later, ReadBefore history reaction cell later

/-- A cell was given a value after the latest run of a reaction has read it. -/
def Stale (history : List Happening) (reaction : OwnerId) (cell : CellId) : Prop :=
  ∃ later, ReadBefore history reaction cell later ∧ .wrote cell ∈ later

variable {history : List Happening} {happening : Happening} {reaction : OwnerId} {cell : CellId}

theorem HasRead.mem (read : HasRead history reaction cell) : .read reaction cell ∈ history := by
  obtain ⟨_, _, rfl, _⟩ := read
  simp

theorem Stale.hasRead (stale : Stale history reaction cell) : HasRead history reaction cell := by
  obtain ⟨later, read, _⟩ := stale
  exact ⟨later, read⟩

theorem hasRead_cons (read : HasRead (happening :: history) reaction cell) :
    happening = .read reaction cell ∨ HasRead history reaction cell := by
  obtain ⟨later, earlier, split, quiet⟩ := read
  cases later with
  | nil => exact .inl (cons.inj split).1
  | cons _ later =>
    obtain ⟨_, rest⟩ := cons.inj split
    exact .inr ⟨later, earlier, rest, fun began => quiet (by simp [began])⟩

theorem stale_cons (stale : Stale (happening :: history) reaction cell) :
    Stale history reaction cell ∨ happening = .wrote cell ∧ HasRead history reaction cell := by
  obtain ⟨later, ⟨earlier, split, quiet⟩, wrote⟩ := stale
  cases later with
  | nil => simp at wrote
  | cons _ later =>
    obtain ⟨rfl, rest⟩ := cons.inj split
    have read : ReadBefore history reaction cell later := ⟨earlier, rest, fun began => quiet (by simp [began])⟩
    rcases mem_cons.mp wrote with same | mem
    · exact .inr ⟨same.symm, later, read⟩
    · exact .inl ⟨later, read, mem⟩

theorem not_hasRead_began : ¬ HasRead (.began reaction :: history) reaction cell := by
  rintro ⟨later, _, split, quiet⟩
  cases later with
  | nil => cases split
  | cons =>
    obtain ⟨rfl, _⟩ := cons.inj split
    simp at quiet

end History

namespace Table

variable {α : Type}

@[simp]
theorem get?_eraseAll (table : Table α) (keys : List Nat) (key : Nat) :
    (table.eraseAll keys).get? key = if key ∈ keys then none else table.get? key := by
  induction keys generalizing table with
  | nil => simp [eraseAll]
  | cons first _ ih =>
    have step := ih (table.erase first)
    rw [eraseAll] at step
    rw [eraseAll, foldl_cons, step, get?_erase]
    by_cases here : key = first <;> simp [here]

end Table

theorem mem_insertSorted (n m : Nat) (list : List Nat) : m ∈ insertSorted n list ↔ m = n ∨ m ∈ list := by
  induction list with
  | nil => simp [insertSorted]
  | cons _ _ ih =>
    unfold insertSorted
    split
    · simp
    · split
      · rename_i same
        simp [same]
      · simp only [mem_cons, ih]
        tauto

theorem mem_foldl_insertSorted (more list : List Nat) (m : Nat) :
    m ∈ more.foldl (fun queue id => insertSorted id queue) list ↔ m ∈ more ∨ m ∈ list := by
  induction more generalizing list with
  | nil => simp
  | cons _ _ ih =>
    rw [foldl_cons, ih, mem_insertSorted, mem_cons]
    tauto

variable {P : Type → Type} {σ ν : Type} {next : Graph P ν}

structure Graph.Grows (graph next : Graph P ν) : Prop where
  nextId_le : graph.nextId ≤ next.nextId
  bodies : ∀ e owner, next.owners.get? e = some owner →
    graph.nextId ≤ e ∨ ∃ old, graph.owners.get? e = some old ∧ old.body = owner.body

theorem Graph.Grows.refl (graph : Graph P ν) : graph.Grows graph :=
  ⟨le_rfl, fun _ owner found => .inr ⟨owner, found, rfl⟩⟩

theorem Graph.Grows.trans {first second third : Graph P ν} (one : first.Grows second) (two : second.Grows third) :
    first.Grows third := by
  refine ⟨one.nextId_le.trans two.nextId_le, ?_⟩
  intro e owner found
  rcases two.bodies e owner found with new | ⟨middle, there, same⟩
  · exact .inl (one.nextId_le.trans new)
  · rcases one.bodies e middle there with new | ⟨old, before, equal⟩
    · exact .inl new
    · exact .inr ⟨old, before, equal.trans same⟩

def Graph.IsReaction (graph : Graph P ν) (e : OwnerId) : Prop :=
  e < graph.nextId ∧ ∀ owner, graph.owners.get? e = some owner → owner.body.isSome

theorem Graph.IsReaction.grow {graph : Graph P ν} {e : OwnerId} (reaction : graph.IsReaction e)
    (grows : graph.Grows next) : next.IsReaction e := by
  refine ⟨reaction.1.trans_le grows.nextId_le, ?_⟩
  intro owner found
  rcases grows.bodies e owner found with new | ⟨old, before, same⟩
  · exact absurd reaction.1 (not_lt.mpr new)
  · exact same ▸ reaction.2 old before

/-- What holds of a state whenever a reaction may run or has run. The reactions in `exempt` are being cleaned,
and the subscribers of the cells in `owed` are still to be queued. -/
structure Sound (exempt : Set OwnerId) (owed : Set CellId) (state : State P σ ν) : Prop where
  cells_old : ∀ c slot, state.graph.cells.get? c = some slot → c < state.graph.nextId
  owners_old : ∀ e owner, state.graph.owners.get? e = some owner → e < state.graph.nextId
  observer : ∀ e, state.graph.observer = some e → state.graph.IsReaction e
  queued : ∀ e ∈ state.graph.queue, state.graph.IsReaction e
  subscribed : ∀ c slot, state.graph.cells.get? c = some slot → ∀ e ∈ slot.subscribers, state.graph.IsReaction e
  read_old : ∀ e c, .read e c ∈ state.history → e < state.graph.nextId ∧ c < state.graph.nextId
  read_value : ∀ e c, .read e c ∈ state.history →
    ∀ slot, state.graph.cells.get? c = some slot → slot.value.isSome
  subscriber : ∀ e owner, state.graph.owners.get? e = some owner → e ∉ exempt →
    ∀ c slot, state.graph.cells.get? c = some slot → HasRead state.history e c → e ∈ slot.subscribers
  waits : ∀ e owner, state.graph.owners.get? e = some owner → e ∉ exempt →
    ∀ c slot, state.graph.cells.get? c = some slot → c ∉ owed → Stale state.history e c → e ∈ state.graph.queue

def Idle (state : State P σ ν) : Prop :=
  state.graph.flushing = false → state.graph.batchDepth = 0 → state.graph.queue = []

structure Follows (state next : State P σ ν) : Prop where
  grows : state.graph.Grows next.graph
  flushing_eq : next.graph.flushing = state.graph.flushing
  batchDepth_eq : next.graph.batchDepth = state.graph.batchDepth

theorem Follows.refl (state : State P σ ν) : Follows state state := ⟨.refl _, rfl, rfl⟩

theorem Follows.trans {first second third : State P σ ν} (one : Follows first second) (two : Follows second third) :
    Follows first third :=
  ⟨one.grows.trans two.grows, two.flushing_eq.trans one.flushing_eq, two.batchDepth_eq.trans one.batchDepth_eq⟩

section Changes

variable {exempt : Set OwnerId} {owed : Set CellId} {state : State P σ ν}
variable {e : OwnerId} {graph : Graph P ν} {slot : Cell ν} {cell : CellId}

theorem Sound.weaken {more : Set OwnerId} (sound : Sound exempt owed state) (wider : exempt ⊆ more) :
    Sound more owed state :=
  { sound with
    subscriber := fun e owner found held => sound.subscriber e owner found fun h => held (wider h)
    waits := fun e owner found held => sound.waits e owner found fun h => held (wider h) }

theorem Sound.narrow (sound : Sound (insert e exempt) owed state) (gone : state.graph.owners.get? e = none) :
    Sound exempt owed state := by
  have other : ∀ x owner, state.graph.owners.get? x = some owner → x ∉ exempt → x ∉ insert e exempt := by
    rintro _ _ found held (rfl | bad)
    · simp [gone] at found
    · exact held bad
  exact { sound with
    subscriber := fun x owner found held => sound.subscriber x owner found (other x owner found held)
    waits := fun x owner found held => sound.waits x owner found (other x owner found held) }

/-- A change of the graph that subscribes nobody and queues nobody. Owners and cells are made with new numbers, only
exempt reactions lose subscriptions, and only they and those that are gone leave the queue. -/
structure Quiet (exempt : Set OwnerId) (graph next : Graph P ν) : Prop where
  nextId_le : graph.nextId ≤ next.nextId
  owners : ∀ e owner, next.owners.get? e = some owner → (graph.nextId ≤ e ∧ e < next.nextId) ∨
    ∃ old, graph.owners.get? e = some old ∧ old.body = owner.body
  cells : ∀ c slot, next.cells.get? c = some slot →
    (graph.nextId ≤ c ∧ c < next.nextId ∧ slot.subscribers = []) ∨
    ∃ old, graph.cells.get? c = some old ∧ (old.value.isSome → slot.value.isSome) ∧
      (∀ e ∈ slot.subscribers, e ∈ old.subscribers) ∧ ∀ e ∈ old.subscribers, e ∉ exempt → e ∈ slot.subscribers
  queue : ∀ e ∈ next.queue, e ∈ graph.queue
  queue_kept : ∀ e ∈ graph.queue, e ∉ exempt → ∀ owner, next.owners.get? e = some owner → e ∈ next.queue
  observer_eq : next.observer = graph.observer

theorem Quiet.grows (quiet : Quiet exempt graph next) : graph.Grows next :=
  ⟨quiet.nextId_le, fun e owner found => (quiet.owners e owner found).imp And.left id⟩

theorem Sound.quiet (sound : Sound exempt owed state) (quiet : Quiet exempt state.graph next) :
    Sound exempt owed { state with graph := next } where
  cells_old c slot found := by
    rcases quiet.cells c slot found with ⟨_, bound, _⟩ | ⟨old, before, _⟩
    · exact bound
    · exact (sound.cells_old c old before).trans_le quiet.nextId_le
  owners_old e owner found := by
    rcases quiet.owners e owner found with ⟨_, bound⟩ | ⟨old, before, _⟩
    · exact bound
    · exact (sound.owners_old e old before).trans_le quiet.nextId_le
  observer e here := (sound.observer e (quiet.observer_eq ▸ here)).grow quiet.grows
  queued e mem := (sound.queued e (quiet.queue e mem)).grow quiet.grows
  subscribed c slot found e mem := by
    rcases quiet.cells c slot found with ⟨_, _, empty⟩ | ⟨old, before, _, fewer, _⟩
    · simp [empty] at mem
    · exact (sound.subscribed c old before e (fewer e mem)).grow quiet.grows
  read_old e c mem := by
    obtain ⟨first, second⟩ := sound.read_old e c mem
    exact ⟨first.trans_le quiet.nextId_le, second.trans_le quiet.nextId_le⟩
  read_value e c mem slot found := by
    rcases quiet.cells c slot found with ⟨new, _⟩ | ⟨old, before, kept, _⟩
    · exact absurd (sound.read_old e c mem).2 (not_lt.mpr new)
    · exact kept (sound.read_value e c mem old before)
  subscriber e owner there held c slot found read := by
    have known := sound.read_old e c read.mem
    rcases quiet.cells c slot found with ⟨new, _⟩ | ⟨old, before, _, _, kept⟩
    · exact absurd known.2 (not_lt.mpr new)
    · rcases quiet.owners e owner there with ⟨new, _⟩ | ⟨earlier, was, _⟩
      · exact absurd known.1 (not_lt.mpr new)
      · exact kept e (sound.subscriber e earlier was held c old before read) held
  waits e owner there held c slot found paid stale := by
    have known := sound.read_old e c stale.hasRead.mem
    rcases quiet.cells c slot found with ⟨new, _⟩ | ⟨old, before, _⟩
    · exact absurd known.2 (not_lt.mpr new)
    · rcases quiet.owners e owner there with ⟨new, _⟩ | ⟨earlier, was, _⟩
      · exact absurd known.1 (not_lt.mpr new)
      · exact quiet.queue_kept e (sound.waits e earlier was held c old before paid stale) held owner there

theorem Quiet.ofOwners {owners : Table (Owner P ν)}
    (kept : ∀ e owner, owners.get? e = some owner → ∃ old, graph.owners.get? e = some old ∧ old.body = owner.body) :
    Quiet exempt graph { graph with owners } :=
  ⟨le_rfl, fun e owner found => .inr (kept e owner found),
    fun _ slot found => .inr ⟨slot, found, id, fun _ => id, fun _ mem _ => mem⟩, fun _ => id,
    fun _ mem _ _ _ => mem, rfl⟩

theorem Quiet.ofCells {cells : Table (Cell ν)}
    (kept : ∀ c slot, cells.get? c = some slot → ∃ old, graph.cells.get? c = some old ∧
      (old.value.isSome → slot.value.isSome) ∧ (∀ e ∈ slot.subscribers, e ∈ old.subscribers) ∧
        ∀ e ∈ old.subscribers, e ∉ exempt → e ∈ slot.subscribers) : Quiet exempt graph { graph with cells } :=
  ⟨le_rfl, fun _ owner found => .inr ⟨owner, found, rfl⟩, fun c slot found => .inr (kept c slot found),
    fun _ => id, fun _ mem _ _ _ => mem, rfl⟩

theorem Table.get?_modify_some {α : Type} {table : Table α} {key other : Nat} {f : α → α} {value : α}
    (found : (table.modify key f).get? other = some value) :
    ∃ old, table.get? other = some old ∧ (value = f old ∨ value = old) := by
  rw [get?_modify] at found
  split at found
  · obtain ⟨old, before, rfl⟩ := map_eq_some_iff.mp found
    exact ⟨old, before, .inl rfl⟩
  · exact ⟨value, found, .inr rfl⟩

theorem Table.mem_of_get? {α : Type} {table : Table α} {key : Nat} {value : α} (found : table.get? key = some value) :
    (key, value) ∈ table.entries := by
  obtain ⟨entries⟩ := table
  induction entries with
  | nil => cases found
  | cons _ _ ih =>
    rw [get?, Table.find?] at found
    split at found
    · rename_i same
      obtain rfl := some.inj found
      exact same ▸ mem_cons_self
    · exact mem_cons_of_mem _ (ih found)

theorem Quiet.modifyOwner (graph : Graph P ν) (e : OwnerId) {f : Owner P ν → Owner P ν}
    (keeps : ∀ owner, (f owner).body = owner.body) :
    Quiet exempt graph { graph with owners := graph.owners.modify e f } := by
  apply Quiet.ofOwners
  intro x owner found
  obtain ⟨old, before, rfl | rfl⟩ := get?_modify_some found
  · exact ⟨old, before, (keeps old).symm⟩
  · exact ⟨owner, before, rfl⟩

theorem Quiet.resetOwner (graph : Graph P ν) (e : OwnerId) : Quiet exempt graph (graph.resetOwner e) :=
  Quiet.modifyOwner graph e fun _ => rfl

theorem Quiet.refl (graph : Graph P ν) : Quiet exempt graph graph :=
  Quiet.ofOwners fun _ owner found => ⟨owner, found, rfl⟩

theorem Quiet.addCleanup (graph : Graph P ν) (task : P Unit) : Quiet exempt graph (graph.addCleanup task) := by
  unfold Graph.addCleanup
  split
  · exact Quiet.refl graph
  · exact Quiet.modifyOwner graph _ fun _ => rfl

theorem unsubscribed_get? (cells : Table (Cell ν)) (sources : List CellId) (e : OwnerId) {c : CellId}
    (found : (sources.foldl (fun cells source =>
      cells.modify source fun cell => { cell with subscribers := cell.subscribers.filter (· != e) }) cells).get? c =
        some slot) :
    ∃ old, cells.get? c = some old ∧ old.value = slot.value ∧ (∀ x ∈ slot.subscribers, x ∈ old.subscribers) ∧
      ∀ x ∈ old.subscribers, x ≠ e → x ∈ slot.subscribers := by
  induction sources generalizing cells with
  | nil => exact ⟨slot, found, rfl, fun _ => id, fun _ mem _ => mem⟩
  | cons _ _ ih =>
    obtain ⟨middle, there, value, fewer, kept⟩ := ih _ found
    obtain ⟨old, before, rfl | rfl⟩ := get?_modify_some there
    · refine ⟨old, before, value, ?_, ?_⟩
      · exact fun x mem => (mem_filter.mp (fewer x mem)).1
      · exact fun x mem apart => kept x (mem_filter.mpr ⟨mem, by simpa using apart⟩) apart
    · exact ⟨middle, before, value, fewer, kept⟩

section

variable (graph)

theorem Quiet.release (held : e ∈ exempt) (sources dropped : List CellId) :
    Quiet exempt graph (graph.release e sources dropped) := by
  apply Quiet.ofCells
  intro c slot found
  rw [get?_eraseAll] at found
  split at found
  · cases found
  · obtain ⟨old, before, value, fewer, kept⟩ := unsubscribed_get? graph.cells sources e found
    refine ⟨old, before, fun present => value ▸ present, fewer, ?_⟩
    exact fun x mem free => kept x mem fun same => free (same ▸ held)

theorem Quiet.eraseOwner (e : OwnerId) : Quiet exempt graph (graph.eraseOwner e) := by
  have owners : ∀ x owner, (graph.eraseOwner e).owners.get? x = some owner →
      x ≠ e ∧ ∃ old, graph.owners.get? x = some old ∧ old.body = owner.body := by
    intro x owner found
    have erased : ∀ owner, (graph.owners.erase e).get? x = some owner → x ≠ e ∧ graph.owners.get? x = some owner := by
      intro owner found
      rw [get?_erase] at found
      split at found
      · cases found
      · exact ⟨‹_›, found⟩
    unfold Graph.eraseOwner at found
    cases above : (graph.owners.get? e).bind Owner.parent with
    | none =>
      simp only [above] at found
      obtain ⟨apart, before⟩ := erased owner found
      exact ⟨apart, owner, before, rfl⟩
    | some =>
      simp only [above] at found
      obtain ⟨old, before, same⟩ := get?_modify_some found
      obtain ⟨apart, before⟩ := erased old before
      exact ⟨apart, old, before, by rcases same with rfl | rfl <;> rfl⟩
  refine ⟨le_rfl, fun x owner found => .inr (owners x owner found).2, ?_, ?_, ?_, rfl⟩
  · exact fun _ slot found => .inr ⟨slot, found, id, fun _ => id, fun _ mem _ => mem⟩
  · exact fun x mem => (mem_filter.mp mem).1
  · intro x mem _ owner found
    exact mem_filter.mpr ⟨mem, by simpa using (owners x owner found).1⟩

theorem get?_eraseOwner_self (e : OwnerId) : (graph.eraseOwner e).owners.get? e = none := by
  unfold eraseOwner
  cases (graph.owners.get? e).bind Owner.parent <;> simp

theorem Quiet.setInUse (cell : CellId) (inUse : Bool) : Quiet exempt graph (graph.setInUse cell inUse) := by
  apply Quiet.ofCells
  intro c slot found
  obtain ⟨old, before, rfl | rfl⟩ := get?_modify_some found
  · exact ⟨old, before, id, fun _ => id, fun _ mem _ => mem⟩
  · exact ⟨slot, before, id, fun _ => id, fun _ mem _ => mem⟩

theorem Quiet.newCell (value : Option ν) : Quiet exempt graph (graph.newCell value).2 := by
  have owners : ∀ e owner, (graph.newCell value).2.owners.get? e = some owner →
      ∃ old, graph.owners.get? e = some old ∧ old.body = owner.body := by
    intro e owner found
    unfold Graph.newCell at found
    cases current : graph.owner with
    | none =>
      simp only [current] at found
      exact ⟨owner, found, rfl⟩
    | some =>
      simp only [current] at found
      obtain ⟨old, before, same⟩ := get?_modify_some found
      exact ⟨old, before, by rcases same with rfl | rfl <;> rfl⟩
  refine ⟨Nat.le_succ _, fun e owner found => .inr (owners e owner found), ?_, fun _ => id,
    fun _ mem _ _ _ => mem, rfl⟩
  intro c slot found
  simp only [Graph.newCell, get?_insert] at found
  split at found
  · rename_i same
    obtain rfl := some.inj found
    exact .inl ⟨Nat.le_of_eq same.symm, Nat.lt_succ_of_le same.le, rfl⟩
  · exact .inr ⟨slot, found, id, fun _ => id, fun _ mem _ => mem⟩

theorem Quiet.newOwner (parent : Option OwnerId) (body : Option (Body P ν)) :
    Quiet exempt graph (graph.newOwner parent body).2 := by
  have inserted : ∀ e owner, (graph.owners.insert graph.nextId { parent, body }).get? e = some owner →
      (graph.nextId ≤ e ∧ e < graph.nextId + 1) ∨ graph.owners.get? e = some owner := by
    intro e owner found
    rw [get?_insert] at found
    split at found
    · rename_i same
      exact .inl ⟨Nat.le_of_eq same.symm, Nat.lt_succ_of_le same.le⟩
    · exact .inr found
  refine ⟨Nat.le_succ _, ?_, fun _ slot found => .inr ⟨slot, found, id, fun _ => id, fun _ mem _ => mem⟩,
    fun _ => id, fun _ mem _ _ _ => mem, rfl⟩
  intro e owner found
  cases parent with
  | none => exact (inserted e owner found).imp id fun before => ⟨owner, before, rfl⟩
  | some =>
    obtain ⟨old, before, same⟩ := get?_modify_some found
    exact (inserted e old before).imp id fun before => ⟨old, before, by rcases same with rfl | rfl <;> rfl⟩

theorem Quiet.flags (flushing : Bool) (batchDepth : Nat) : Quiet exempt graph { graph with flushing, batchDepth } :=
  ⟨le_rfl, fun _ owner found => .inr ⟨owner, found, rfl⟩,
    fun _ slot found => .inr ⟨slot, found, id, fun _ => id, fun _ mem _ => mem⟩, fun _ => id,
    fun _ mem _ _ _ => mem, rfl⟩

end

theorem Sound.context (sound : Sound exempt owed state) (owner observer : Option OwnerId)
    (reaction : ∀ e, observer = some e → state.graph.IsReaction e) :
    Sound exempt owed { state with graph := { state.graph with owner, observer } } :=
  { sound with observer := reaction }

theorem Graph.Grows.track (graph : Graph P ν) (cell : CellId) : graph.Grows (graph.track cell) := by
  unfold Graph.track
  split
  · exact .refl graph
  · split
    · refine ⟨le_rfl, fun e owner found => ?_⟩
      obtain ⟨old, before, same⟩ := get?_modify_some found
      exact .inr ⟨old, before, by rcases same with rfl | rfl <;> rfl⟩
    · exact .refl graph

theorem Graph.track_frame (graph : Graph P ν) (cell : CellId) :
    (graph.track cell).queue = graph.queue ∧ (graph.track cell).flushing = graph.flushing ∧
      (graph.track cell).batchDepth = graph.batchDepth ∧ (graph.track cell).observer = graph.observer := by
  unfold track
  split
  · simp
  · split <;> simp

theorem Sound.track (sound : Sound exempt owed state) (cell : CellId) :
    Sound exempt owed { state with graph := state.graph.track cell } := by
  unfold Graph.track
  split
  · exact sound
  · rename_i observer current
    split
    · have subscribed : Sound exempt owed { state with graph := { state.graph with
          cells := state.graph.cells.modify cell fun c =>
            { c with subscribers := insertSorted observer c.subscribers } } } := by
        refine { sound with cells_old := ?_, subscribed := ?_, read_value := ?_, subscriber := ?_, waits := ?_ }
        · intro c slot found
          obtain ⟨old, before, _⟩ := get?_modify_some found
          exact sound.cells_old c old before
        · intro c slot found e mem
          obtain ⟨old, before, rfl | rfl⟩ := get?_modify_some found
          · rcases (mem_insertSorted observer e old.subscribers).mp mem with rfl | mem
            · exact sound.observer e current
            · exact sound.subscribed c old before e mem
          · exact sound.subscribed c slot before e mem
        · intro e c mem slot found
          obtain ⟨old, before, rfl | rfl⟩ := get?_modify_some found
          · exact sound.read_value e c mem old before
          · exact sound.read_value e c mem slot before
        · intro e owner there held c slot found read
          obtain ⟨old, before, rfl | rfl⟩ := get?_modify_some found
          · exact (mem_insertSorted _ _ _).mpr (.inr (sound.subscriber e owner there held c old before read))
          · exact sound.subscriber e owner there held c slot before read
        · intro e owner there held c slot found
          obtain ⟨old, before, _⟩ := get?_modify_some found
          exact sound.waits e owner there held c old before
      exact subscribed.quiet (Quiet.modifyOwner _ observer fun _ => rfl)
    · exact sound

theorem mem_subscribers_track (graph : Graph P ν) (cell : CellId) (current : graph.observer = some e)
    (found : (graph.track cell).cells.get? cell = some slot) : e ∈ slot.subscribers := by
  simp only [track, current] at found
  split at found
  · rw [Table.get?_modify, if_pos rfl] at found
    obtain ⟨_, _, rfl⟩ := map_eq_some_iff.mp found
    exact (mem_insertSorted _ _ _).mpr (.inl rfl)
  · rename_i dead
    simp [cellAlive, Table.contains, found] at dead

theorem Sound.noteRead (sound : Sound exempt owed state) (current : state.graph.observer = some e)
    (found : state.graph.cells.get? cell = some slot) (present : slot.value.isSome) (mem : e ∈ slot.subscribers) :
    Sound exempt owed { state with history := .read e cell :: state.history } := by
  refine { sound with read_old := ?_, read_value := ?_, subscriber := ?_, waits := ?_ }
  · intro x c member
    rcases mem_cons.mp member with same | before
    · obtain ⟨rfl, rfl⟩ := Happening.read.inj same
      exact ⟨(sound.observer x current).1, sound.cells_old c slot found⟩
    · exact sound.read_old x c before
  · intro x c member other there
    rcases mem_cons.mp member with same | before
    · obtain ⟨rfl, rfl⟩ := Happening.read.inj same
      obtain rfl := some.inj (found.symm.trans there)
      exact present
    · exact sound.read_value x c before other there
  · intro x owner there held c other here read
    rcases hasRead_cons read with same | before
    · obtain ⟨rfl, rfl⟩ := Happening.read.inj same
      obtain rfl := some.inj (found.symm.trans here)
      exact mem
    · exact sound.subscriber x owner there held c other here before
  · intro x owner there held c other here paid stale
    rcases stale_cons stale with before | ⟨wrong, _⟩
    · exact sound.waits x owner there held c other here paid before
    · cases wrong

theorem Sound.noteBegan (sound : Sound (insert e exempt) owed state) :
    Sound exempt owed { state with history := .began e :: state.history } := by
  have still : ∀ {x c}, HasRead (.began e :: state.history) x c → x ∉ exempt →
      x ∉ insert e exempt ∧ HasRead state.history x c := by
    intro x c read held
    have apart : x ≠ e := by
      rintro rfl
      exact not_hasRead_began read
    refine ⟨fun mem => mem.elim apart held, ?_⟩
    exact (hasRead_cons read).resolve_left (by simp)
  refine { sound with read_old := ?_, read_value := ?_, subscriber := ?_, waits := ?_ }
  · intro x c member
    exact sound.read_old x c (by simpa using member)
  · intro x c member
    exact sound.read_value x c (by simpa using member)
  · intro x owner there held c slot found read
    obtain ⟨held, read⟩ := still read held
    exact sound.subscriber x owner there held c slot found read
  · intro x owner there held c slot found paid stale
    obtain ⟨held, _⟩ := still stale.hasRead held
    exact sound.waits x owner there held c slot found paid ((stale_cons stale).resolve_right (by simp))

theorem Sound.store (sound : Sound exempt owed state) (cell : CellId) (value : ν) :
    Sound exempt (insert cell owed) { state with
      graph := state.graph.store cell value, history := .wrote cell :: state.history } := by
  have cells : ∀ c slot, (state.graph.store cell value).cells.get? c = some slot →
      ∃ old, state.graph.cells.get? c = some old ∧ slot.subscribers = old.subscribers ∧
        (old.value.isSome → slot.value.isSome) := by
    intro c slot found
    obtain ⟨old, before, rfl | rfl⟩ := get?_modify_some found
    · exact ⟨old, before, rfl, fun _ => rfl⟩
    · exact ⟨slot, before, rfl, id⟩
  refine { sound with
    cells_old := ?_, subscribed := ?_, read_old := ?_, read_value := ?_, subscriber := ?_, waits := ?_ }
  · intro c slot found
    obtain ⟨old, before, _⟩ := cells c slot found
    exact sound.cells_old c old before
  · intro c slot found e mem
    obtain ⟨old, before, same, _⟩ := cells c slot found
    exact sound.subscribed c old before e (same ▸ mem)
  · intro e c member
    exact sound.read_old e c (by simpa using member)
  · intro e c member slot found
    obtain ⟨old, before, _, kept⟩ := cells c slot found
    exact kept (sound.read_value e c (by simpa using member) old before)
  · intro e owner there held c slot found read
    obtain ⟨old, before, same, _⟩ := cells c slot found
    have read := (hasRead_cons read).resolve_left (by simp)
    exact same ▸ sound.subscriber e owner there held c old before read
  · intro e owner there held c slot found paid stale
    obtain ⟨old, before, _⟩ := cells c slot found
    obtain ⟨apart, paid⟩ := not_or.mp paid
    have stale := (stale_cons stale).resolve_right fun ⟨same, _⟩ => apart (Happening.wrote.inj same).symm
    exact sound.waits e owner there held c old before paid stale

theorem Sound.settle (sound : Sound exempt (insert cell owed) state)
    (unread : ∀ e slot, state.graph.cells.get? cell = some slot → ¬ HasRead state.history e cell) :
    Sound exempt owed state := by
  refine { sound with waits := ?_ }
  intro e owner there held c slot found paid stale
  refine sound.waits e owner there held c slot found ?_ stale
  rintro (rfl | mem)
  · exact unread e slot found stale.hasRead
  · exact paid mem

theorem Sound.enqueue (sound : Sound exempt (insert cell owed) state) :
    Sound exempt owed { state with graph := state.graph.enqueueSubscribers cell } := by
  cases found : state.graph.cells.get? cell with
  | none =>
    have same : state.graph.enqueueSubscribers cell = state.graph := by simp [enqueueSubscribers, found]
    rw [same]
    exact sound.settle fun e slot there => by simp [found] at there
  | some slot =>
    have same : state.graph.enqueueSubscribers cell = { state.graph with
        queue := slot.subscribers.foldl (fun queue id => insertSorted id queue) state.graph.queue } := by
      simp [enqueueSubscribers, found]
    rw [same]
    refine { sound with queued := ?_, waits := ?_ }
    · intro e mem
      rcases (mem_foldl_insertSorted _ _ _).mp mem with subscriber | before
      · exact sound.subscribed cell slot found e subscriber
      · exact sound.queued e before
    · intro e owner there held c other here paid stale
      apply (mem_foldl_insertSorted _ _ _).mpr
      by_cases this : c = cell
      · subst this
        obtain rfl := some.inj (found.symm.trans here)
        exact .inl (sound.subscriber e owner there held c slot found stale.hasRead)
      · exact .inr (sound.waits e owner there held c other here (not_or.mpr ⟨this, paid⟩) stale)

theorem Sound.pop {rest : List OwnerId} (sound : Sound exempt owed state) (waiting : state.graph.queue = e :: rest) :
    Sound (insert e exempt) owed { state with graph := { state.graph with queue := rest } } := by
  have wider := sound.weaken (Set.subset_insert e exempt)
  refine { wider with queued := ?_, waits := ?_ }
  · exact fun x mem => sound.queued x (by simp [waiting, mem])
  · intro x owner there held c slot found paid stale
    have mem := wider.waits x owner there held c slot found paid stale
    rw [waiting] at mem
    exact (mem_cons.mp mem).resolve_left fun same => held (.inl same)

end Changes

section Runs

def Leads {α : Type} (before : State P σ ν → Prop) (run : Run P σ ν α) (after : State P σ ν → Prop) : Prop :=
  ∀ state result next, before state → run state = .ok result next → after next ∧ Follows state next

def Calm (exempt : Set OwnerId) (state : State P σ ν) : Prop := Sound exempt ∅ state ∧ Idle state

def Keeps {α : Type} (run : Run P σ ν α) : Prop := ∀ exempt, Leads (Calm exempt) run (Calm exempt)

variable {α β : Type} {before middle after : State P σ ν → Prop} {first : Run P σ ν α} {change : Graph P ν → Graph P ν}

theorem bind_ok {next : α → Run P σ ν β} {state final : State P σ ν} {result : β}
    (ok : (first >>= next) state = .ok result final) :
    ∃ value between, first state = .ok value between ∧ next value between = .ok result final := by
  change EStateM.bind first next state = _ at ok
  unfold EStateM.bind at ok
  split at ok
  · exact ⟨_, _, ‹_›, ok⟩
  · cases ok

theorem run_see {ι : Type} {state : State P σ ν} (view : Graph P ν → ι) (after : ι → Run P σ ν β) :
    (seeGraph view >>= after) state = after (view state.graph) state := rfl

theorem Leads.pure (value : α) : Leads before (Pure.pure value : Run P σ ν α) before := by
  intro state result next holds ok
  cases ok
  exact ⟨holds, .refl _⟩

theorem Leads.throw (why : Fault) : Leads before (MonadExcept.throw why : Run P σ ν α) after := by
  intro state result next holds ok
  cases ok

theorem Leads.throw_bind (why : Fault) (next : α → Run P σ ν β) :
    Leads before ((MonadExcept.throw why : Run P σ ν α) >>= next) after := by
  intro state result final holds ok
  cases ok

theorem Leads.bind {next : α → Run P σ ν β} (one : Leads before first middle)
    (two : ∀ value, Leads middle (next value) after) : Leads before (first >>= next) after := by
  intro state result final holds ok
  obtain ⟨value, between, here, there⟩ := bind_ok ok
  obtain ⟨holds, follows⟩ := one state value between holds here
  obtain ⟨holds, onward⟩ := two value between result final holds there
  exact ⟨holds, follows.trans onward⟩

theorem Leads.see {ι : Type} {view : Graph P ν → ι} {next : ι → Run P σ ν β}
    (leads : ∀ value, Leads (fun state => before state ∧ view state.graph = value) (next value) after) :
    Leads before (seeGraph view >>= next) after := by
  intro state result final holds ok
  exact leads _ state result final ⟨holds, rfl⟩ ok

theorem Leads.alter (leads : ∀ state, before state → after { state with graph := change state.graph } ∧
      Follows state { state with graph := change state.graph }) :
    Leads before (alterGraph change) after := by
  intro state result next holds ok
  cases ok
  exact leads state holds

theorem Leads.mono {run : Run P σ ν α} {weaker stronger : State P σ ν → Prop} (leads : Leads before run after)
    (left : ∀ state, weaker state → before state) (right : ∀ state, after state → stronger state) :
    Leads weaker run stronger := by
  intro state result next holds ok
  obtain ⟨holds, follows⟩ := leads state result next (left state holds) ok
  exact ⟨right next holds, follows⟩

theorem Leads.rules (holds : State P σ ν → Prop) : RunRules fun (run : Run P σ ν _) _ => Leads holds run holds where
  pure := Leads.pure
  throw := Leads.throw
  bind := Leads.bind
  seeGraph view _ _ _ before ok := by
    cases ok
    exact ⟨before, .refl _⟩

theorem Leads.forM {γ : Type} {step : γ → Run P σ ν Unit} (leads : ∀ item, Leads before (step item) before)
    (items : List γ) : Leads before (items.forM step) before := (Leads.rules before).forM step step leads items

theorem Calm.quiet {exempt : Set OwnerId} {state : State P σ ν} (calm : Calm exempt state)
    (quiet : Quiet exempt state.graph next) (flushing : next.flushing = state.graph.flushing)
    (depth : next.batchDepth = state.graph.batchDepth) :
    Calm exempt { state with graph := next } ∧ Follows state { state with graph := next } := by
  refine ⟨⟨calm.1.quiet quiet, ?_⟩, quiet.grows, flushing, depth⟩
  intro still flat
  have empty := calm.2 (flushing.symm.trans still) (depth.symm.trans flat)
  exact eq_nil_iff_forall_not_mem.mpr fun e mem => by simpa [empty] using quiet.queue e mem

theorem Keeps.alter (quiet : ∀ (exempt : Set OwnerId) graph, Quiet exempt graph (change graph))
    (flushing : ∀ graph, (change graph).flushing = graph.flushing)
    (depth : ∀ graph, (change graph).batchDepth = graph.batchDepth) : Keeps (σ := σ) (alterGraph change) :=
  fun exempt => Leads.alter fun _ calm => calm.quiet (quiet exempt _) (flushing _) (depth _)

theorem Keeps.rules : RunRules fun (run : Run P σ ν _) _ => Keeps run := .all fun exempt => Leads.rules (Calm exempt)

end Runs

section Jobs

variable {before after : State P σ ν → Prop} {ι : Type} {body : Run P σ ν ι}

structure Obeys (runner : Runner P σ ν) : Prop where
  perform : ∀ {ι : Type} (task : P ι), Keeps (runner (.perform task))
  dispose : ∀ e, Keeps (runner (.dispose e))
  rerun : ∀ exempt e, Leads (fun state => Calm (insert e exempt) state ∧ state.graph.IsReaction e) (runner (.rerun e))
    (Calm exempt)
  drain : ∀ exempt, Leads (fun state => Sound exempt ∅ state ∧ state.graph.flushing = true) (runner .drain)
    (fun state => Sound exempt ∅ state ∧ state.graph.queue = [])

variable {self : Runner P σ ν} {exempt : Set OwnerId} {opened : State P σ ν → Prop}

theorem Leads.flush {during drained : State P σ ν → Prop} (drains : Leads during (self .drain) drained)
    (busy : ∀ state, before state → state.graph.flushing = true → after state)
    (enter : ∀ state, before state → during { state with graph := { state.graph with flushing := true } })
    (leave : ∀ state, drained state → after { state with graph := { state.graph with flushing := false } }) :
    Leads before (flush self) after := by
  intro state result final holds ok
  obtain ⟨_, _, here, ok⟩ := bind_ok ok
  cases here
  split at ok
  · rename_i flushing
    cases ok
    exact ⟨busy state holds flushing, .refl _⟩
  · rename_i still
    obtain ⟨_, _, here, ok⟩ := bind_ok ok
    cases here
    obtain ⟨_, drained, here, ok⟩ := bind_ok ok
    obtain ⟨empty, follows⟩ := drains _ _ _ (enter state holds) here
    cases ok
    refine ⟨leave drained empty, ⟨follows.grows.nextId_le, follows.grows.bodies⟩, ?_, follows.batchDepth_eq⟩
    simpa using (Bool.eq_false_iff.mpr still).symm

theorem flush_leads (obeys : Obeys self) : Leads (Sound exempt ∅) (flush self) (Calm exempt) := by
  refine Leads.flush (obeys.drain exempt) (fun state sound flushing => ⟨sound, fun still => by simp [flushing] at still⟩) ?_ ?_
  · exact fun state sound => ⟨sound.quiet (Quiet.flags state.graph true state.graph.batchDepth), rfl⟩
  · exact fun state ⟨sound, empty⟩ => ⟨sound.quiet (Quiet.flags _ false _), fun _ _ => empty⟩

theorem notify_leads (obeys : Obeys self) (cell : CellId) :
    Leads (fun state => Sound exempt (insert cell ∅) state ∧ Idle state) (notify self cell) (Calm exempt) := by
  apply Leads.see
  intro alive
  split
  · apply Leads.bind
    · apply Leads.alter
      rintro state ⟨⟨sound, _⟩, _⟩
      have follows : Follows state { state with graph := state.graph.enqueueSubscribers cell } := by
        unfold enqueueSubscribers
        split
        · exact .refl _
        · exact ⟨⟨le_rfl, fun _ owner found => .inr ⟨owner, found, rfl⟩⟩, rfl, rfl⟩
      exact ⟨sound.enqueue, follows⟩
    · intro _
      apply Leads.see
      intro depth
      split
      · exact (flush_leads obeys).mono (fun _ => And.left) fun _ => id
      · rename_i nested
        refine (Leads.pure ()).mono (fun state holds => ⟨holds.1, ?_⟩) fun _ => id
        exact fun _ flat => absurd (holds.2.symm.trans flat) nested
  · rename_i dead
    refine (Leads.pure ()).mono (fun state holds => ⟨holds.1.1.settle ?_, holds.1.2⟩) fun _ => id
    intro e slot found
    have gone := holds.2.trans (Bool.eq_false_iff.mpr dead)
    simp [cellAlive, Table.contains, found] at gone

theorem Leads.batch {done closed : State P σ ν → Prop} (leads : Leads opened body done)
    (flushes : Leads closed (Run.flush self) after) (enter : ∀ state, before state →
      opened { state with graph := { state.graph with batchDepth := state.graph.batchDepth + 1 } })
    (leave : ∀ state, done state →
      closed { state with graph := { state.graph with batchDepth := state.graph.batchDepth - 1 } })
    (nested : ∀ state, closed state → state.graph.batchDepth ≠ 0 → after state) :
    Leads before (Run.inBatch self body) after := by
  intro state result final holds ok
  obtain ⟨_, mem, here, ok⟩ := bind_ok ok
  cases here
  obtain ⟨_, mem, here, ok⟩ := bind_ok ok
  obtain ⟨holds, follows⟩ := leads _ _ _ (enter state holds) here
  obtain ⟨_, _, here, ok⟩ := bind_ok ok
  cases here
  have depth : mem.graph.batchDepth - 1 = state.graph.batchDepth := by
    rw [follows.batchDepth_eq]
    rfl
  have back : Follows state { mem with graph := { mem.graph with batchDepth := mem.graph.batchDepth - 1 } } :=
    ⟨⟨follows.grows.nextId_le, follows.grows.bodies⟩, follows.flushing_eq, depth⟩
  obtain ⟨_, _, here, ok⟩ := bind_ok ok
  cases here
  split at ok
  · obtain ⟨_, _, here, ok⟩ := bind_ok ok
    obtain ⟨holds, onward⟩ := flushes _ _ _ (leave mem holds) here
    cases ok
    exact ⟨holds, back.trans onward⟩
  · rename_i deep
    cases ok
    exact ⟨nested _ (leave mem holds) deep, back⟩

theorem Leads.inBatch (obeys : Obeys self) (leads : Leads opened body (Calm exempt)) (enter : ∀ state, before state →
      opened { state with graph := { state.graph with batchDepth := state.graph.batchDepth + 1 } }) :
    Leads before (Run.inBatch self body) (Calm exempt) := by
  refine Leads.batch leads (flush_leads obeys) enter (fun state calm => ?_) fun state sound nested => ?_
  · exact calm.1.quiet (Quiet.flags state.graph state.graph.flushing (state.graph.batchDepth - 1))
  · exact ⟨sound, fun _ flat => absurd flat nested⟩

theorem Calm.enterBatch {state : State P σ ν} (calm : Calm exempt state) :
    Calm exempt { state with graph := { state.graph with batchDepth := state.graph.batchDepth + 1 } } :=
  ⟨calm.1.quiet (Quiet.flags state.graph state.graph.flushing (state.graph.batchDepth + 1)),
    fun _ flat => by simp at flat⟩

theorem Keeps.inBatch {ι : Type} {body : Run P σ ν ι} (obeys : Obeys self) (keeps : Keeps body) :
    Keeps (inBatch self body) :=
  fun exempt => Leads.inBatch obeys (keeps exempt) fun _ calm => calm.enterBatch

theorem Leads.context {owner observer : Option OwnerId} {entered left : State P σ ν → Prop} (leads : Leads entered body left)
    (enter : ∀ state, before state → entered { state with graph := { state.graph with owner, observer } })
    (leave : ∀ state mem, before state → state.graph.Grows mem.graph → left mem →
      after { mem with graph := { mem.graph with owner := state.graph.owner, observer := state.graph.observer } }) :
    Leads before (inContext owner observer body) after := by
  intro state result final holds ok
  obtain ⟨_, _, here, ok⟩ := bind_ok ok
  cases here
  obtain ⟨_, _, here, ok⟩ := bind_ok ok
  cases here
  obtain ⟨_, mem, here, ok⟩ := bind_ok ok
  obtain ⟨done, follows⟩ := leads _ _ _ (enter state holds) here
  obtain ⟨_, _, here, ok⟩ := bind_ok ok
  cases here
  cases ok
  have grows : state.graph.Grows mem.graph := ⟨follows.grows.nextId_le, follows.grows.bodies⟩
  exact ⟨leave state mem holds grows done, ⟨grows.nextId_le, grows.bodies⟩, follows.flushing_eq, follows.batchDepth_eq⟩

theorem Leads.inContext (keeps : Keeps body) (owner observer : Option OwnerId) :
    Leads (fun state => Calm exempt state ∧ ∀ e, observer = some e → state.graph.IsReaction e)
      (inContext owner observer body) (Calm exempt) := by
  refine Leads.context (keeps exempt) (fun state holds => ⟨holds.1.1.context owner observer holds.2, holds.1.2⟩) ?_
  intro state mem holds grows calm
  exact ⟨calm.1.context _ _ fun e current => (holds.1.1.observer e current).grow grows, calm.2⟩

theorem store_leads (cell : CellId) (value : ν) : Leads (Calm exempt) (store (σ := σ) (P := P) cell value)
      (fun state => Sound exempt (insert cell ∅) state ∧ Idle state) := by
  intro state result final calm ok
  obtain ⟨_, _, here, ok⟩ := bind_ok ok
  cases here
  cases ok
  exact ⟨⟨calm.1.store cell value, calm.2⟩,
    ⟨⟨le_rfl, fun _ owner found => .inr ⟨owner, found, rfl⟩⟩, rfl, rfl⟩⟩

theorem Keeps.write (obeys : Obeys self) (cell : CellId) (value : ν) : Keeps (write self cell value) :=
  Keeps.rules.write self self fun _ => (store_leads cell value).bind fun _ => notify_leads obeys cell

theorem Keeps.clean (obeys : Obeys self) {e : OwnerId} (held : e ∈ exempt) :
    Leads (Calm exempt) (clean self e) (Calm exempt) := by
  apply Leads.see
  intro found
  cases found with
  | none => exact (Leads.pure ()).mono (fun _ => And.left) fun _ => id
  | some =>
    refine Leads.mono ?_ (fun _ => And.left) fun _ => id
    refine Leads.bind (Leads.alter fun state calm => calm.quiet (Quiet.resetOwner _ e) rfl rfl) fun _ => ?_
    refine (Leads.forM (fun child => obeys.dispose child exempt) _).bind fun _ => ?_
    refine (Leads.forM (fun task => obeys.perform task exempt) _).bind fun _ => ?_
    exact Leads.alter fun state calm => calm.quiet (Quiet.release _ held _ _) rfl rfl

theorem Keeps.dispose (obeys : Obeys self) (e : OwnerId) : Keeps (Run.dispose self e) := by
  intro exempt
  have cleaned : Leads (Calm exempt) (Run.clean self e) (Calm (insert e exempt)) :=
    (Keeps.clean obeys (Set.mem_insert e exempt)).mono
      (fun state calm => ⟨calm.1.weaken (Set.subset_insert e exempt), calm.2⟩) fun _ => id
  refine cleaned.bind fun _ => Leads.alter fun state calm => ?_
  obtain ⟨erased, follows⟩ := calm.quiet (Quiet.eraseOwner state.graph e) rfl rfl
  exact ⟨⟨erased.1.narrow (get?_eraseOwner_self state.graph e), erased.2⟩, follows⟩

theorem store_first_leads {cell : CellId} {slot : Cell ν} (empty : slot.value = none) (value : ν) :
    Leads (fun state => Calm exempt state ∧ state.graph.cells.get? cell = some slot)
      (store (σ := σ) (P := P) cell value) (Calm exempt) := by
  rintro state result final ⟨calm, found⟩ ok
  obtain ⟨stored, follows⟩ := store_leads cell value state result final calm ok
  obtain ⟨_, _, here, ok⟩ := bind_ok ok
  cases here
  cases ok
  refine ⟨⟨stored.1.settle ?_, stored.2⟩, follows⟩
  intro e _ _ read
  have read := (hasRead_cons read).resolve_left (by simp)
  have present := calm.1.read_value e cell read.mem slot found
  simp [empty] at present

theorem Keeps.runBody [BEq ν] (obeys : Obeys self) (body : Body P ν) : Keeps (Run.runBody self body) := by
  intro exempt
  cases body with
  | effect task => exact obeys.perform task exempt
  | computed cell task =>
    refine (obeys.perform task exempt).bind fun value => Leads.see fun found => ?_
    cases found with
    | none => exact (Leads.pure ()).mono (fun _ => And.left) fun _ => id
    | some =>
      dsimp only
      split
      · rename_i empty
        exact store_first_leads empty value
      · refine Leads.mono ?_ (fun _ => And.left) fun _ => id
        rename_i old _
        have written : Leads (Calm exempt) (if old == value then Pure.pure () else Run.write self cell value)
            (Calm exempt) := by
          split
          · exact Leads.pure ()
          · exact Keeps.write obeys cell value exempt
        split
        · exact Leads.throw_bind _ _
        · exact written

theorem rerun_leads [BEq ν] (obeys : Obeys self) (e : OwnerId) :
    Leads (fun state => Calm (insert e exempt) state ∧ state.graph.IsReaction e) (rerun self e) (Calm exempt) := by
  apply Leads.see
  intro found
  cases found with
  | none =>
    exact (Leads.pure ()).mono (fun state holds => ⟨holds.1.1.1.narrow holds.2, holds.1.1.2⟩) fun _ => id
  | some owner =>
    rintro _ _ _ ⟨⟨calm, reaction⟩, found⟩ ok
    cases what : owner.body with
    | none =>
      have acts := reaction.2 owner found
      simp [what] at acts
    | some body =>
      simp only [bind_some, what] at ok
      obtain ⟨_, cleaned, here, ok⟩ := bind_ok ok
      obtain ⟨calm, follows⟩ := Keeps.clean obeys (Set.mem_insert e exempt) _ _ _ calm here
      obtain ⟨_, begun, here, ok⟩ := bind_ok ok
      cases here
      have begun : Calm exempt { cleaned with history := .began e :: cleaned.history } := ⟨calm.1.noteBegan, calm.2⟩
      have reaction : cleaned.graph.IsReaction e := reaction.grow follows.grows
      obtain ⟨calm, onward⟩ := Leads.inContext (Keeps.runBody obeys body) (some e) (some e) _ _ _
        ⟨begun, fun x same => some.inj same ▸ reaction⟩ ok
      exact ⟨calm, follows.trans { onward with }⟩

theorem drain_leads (obeys : Obeys self) :
    Leads (fun state => Sound exempt ∅ state ∧ state.graph.flushing = true) (drain self)
      (fun state => Sound exempt ∅ state ∧ state.graph.queue = []) := by
  apply Leads.see
  intro queue
  cases queue with
  | nil => exact (Leads.pure ()).mono (fun _ holds => ⟨holds.1.1, holds.2⟩) fun _ => id
  | cons next =>
    rintro state _ _ ⟨⟨sound, flushing⟩, waiting⟩ ok
    obtain ⟨_, _, here, ok⟩ := bind_ok ok
    cases here
    obtain ⟨_, rerun, here, ok⟩ := bind_ok ok
    have reaction : state.graph.IsReaction next := sound.queued next (by simp [waiting])
    obtain ⟨⟨sound, _⟩, follows⟩ := obeys.rerun exempt next _ _ _
      ⟨⟨sound.pop waiting, fun still => by simp [flushing] at still⟩, reaction⟩ here
    obtain ⟨drained, onward⟩ := obeys.drain exempt _ _ _ ⟨sound, follows.flushing_eq.trans flushing⟩ ok
    have back : Follows state rerun :=
      ⟨⟨follows.grows.nextId_le, follows.grows.bodies⟩, follows.flushing_eq, follows.batchDepth_eq⟩
    exact ⟨drained, back.trans onward⟩

theorem Graph.isReaction_newOwner (graph : Graph P ν) (parent : Option OwnerId) (body : Body P ν) :
    (graph.newOwner parent (some body)).2.IsReaction graph.nextId := by
  refine ⟨Nat.lt_succ_self _, ?_⟩
  intro owner found
  have inserted : ∀ owner,
      (graph.owners.insert graph.nextId { parent, body := some body }).get? graph.nextId = some owner →
      owner.body.isSome := by
    intro owner found
    rw [get?_insert, if_pos rfl] at found
    exact some.inj found ▸ rfl
  cases parent with
  | none => exact inserted owner found
  | some =>
    obtain ⟨old, before, rfl | rfl⟩ := get?_modify_some found
    · exact inserted old before
    · exact inserted owner before

theorem Keeps.newReaction (obeys : Obeys self) (body : Body P ν) : Keeps (Run.newReaction self body) := by
  intro exempt state result final calm ok
  obtain ⟨_, _, here, ok⟩ := bind_ok ok
  cases here
  have reaction := isReaction_newOwner state.graph state.graph.owner body
  obtain ⟨calm, follows⟩ := calm.quiet (Quiet.newOwner state.graph state.graph.owner (some body)) rfl rfl
  obtain ⟨_, _, here, ok⟩ := bind_ok ok
  cases ok
  have first : Leads (fun next => Calm exempt next ∧ next.graph.IsReaction state.graph.nextId)
      (Run.inBatch self (self (.rerun state.graph.nextId))) (Calm exempt) := by
    refine Leads.inBatch obeys (obeys.rerun exempt state.graph.nextId) ?_
    rintro _ ⟨calm, reaction⟩
    obtain ⟨sound, idle⟩ := calm.enterBatch
    exact ⟨⟨sound.weaken (Set.subset_insert _ exempt), idle⟩, reaction⟩
  obtain ⟨calm, onward⟩ := first _ _ _ ⟨calm, reaction⟩ here
  exact ⟨calm, follows.trans onward⟩

theorem Keeps.change {ι : Type} {change : Graph P ν → ι × Graph P ν}
    (quiet : ∀ (exempt : Set OwnerId) graph, Quiet exempt graph (change graph).2)
    (flushing : ∀ graph, (change graph).2.flushing = graph.flushing)
    (depth : ∀ graph, (change graph).2.batchDepth = graph.batchDepth) : Keeps (σ := σ) (changeGraph change) := by
  intro exempt state result next calm ok
  cases ok
  exact calm.quiet (quiet exempt _) (flushing _) (depth _)

theorem Keeps.newCell (value : Option ν) : Keeps (σ := σ) (P := P) (changeGraph (·.newCell value)) :=
  Keeps.change (fun _ graph => Quiet.newCell graph value) (fun _ => rfl) fun _ => rfl

theorem Keeps.newComputed (obeys : Obeys self) (task : P ν) : Keeps (newComputed self task) :=
  Keeps.rules.newComputed self self (Keeps.newCell none) fun _ => Keeps.newReaction obeys _

theorem Calm.track {state : State P σ ν} (calm : Calm exempt state) (cell : CellId) :
    Calm exempt { state with graph := state.graph.track cell } ∧
      Follows state { state with graph := state.graph.track cell } := by
  obtain ⟨queue, flushing, depth, _⟩ := state.graph.track_frame cell
  refine ⟨⟨calm.1.track cell, ?_⟩, Graph.Grows.track state.graph cell, flushing, depth⟩
  exact fun still flat => queue.trans (calm.2 (flushing.symm.trans still) (depth.symm.trans flat))

theorem noteRead_leads {cell : CellId} {slot : Cell ν} (present : slot.value.isSome) :
    Leads (fun state => Calm exempt state ∧ state.graph.cells.get? cell = some slot ∧
        ∀ e, state.graph.observer = some e → e ∈ slot.subscribers)
      (noteRead (σ := σ) (P := P) cell) (Calm exempt) := by
  apply Leads.see
  intro observer
  rintro _ _ _ ⟨⟨calm, found, mem⟩, current⟩ ok
  cases observer with
  | none =>
    cases ok
    exact ⟨calm, .refl _⟩
  | some e =>
    cases ok
    exact ⟨⟨calm.1.noteRead current found present (mem e current), calm.2⟩, .refl _, rfl, rfl⟩

theorem Keeps.read (tracked : Bool) (cell : CellId) : Keeps (σ := σ) (P := P) (ν := ν) (read tracked cell) := by
  intro exempt
  cases tracked with
  | false =>
    refine Leads.see fun found => Leads.mono ?_ (fun _ => And.left) fun _ => id
    cases found with
    | none => exact Leads.pure none
    | some slot =>
      dsimp only
      split
      · exact Leads.throw_bind _ _
      · exact Leads.pure slot.value
  | true =>
    have tracks : Leads (Calm exempt) (alterGraph (·.track cell) : Run P σ ν Unit) (fun state => Calm exempt state ∧
        ∀ e slot, state.graph.observer = some e → state.graph.cells.get? cell = some slot → e ∈ slot.subscribers) := by
      refine Leads.alter fun state calm => ?_
      obtain ⟨tracked, follows⟩ := calm.track cell
      refine ⟨⟨tracked, fun e slot current found => ?_⟩, follows⟩
      exact mem_subscribers_track state.graph cell ((state.graph.track_frame cell).2.2.2.symm.trans current) found
    refine tracks.bind fun _ => Leads.see fun found => ?_
    cases found with
    | none => exact (Leads.pure none).mono (fun _ holds => holds.1.1) fun _ => id
    | some slot =>
      dsimp only
      split
      · exact Leads.throw_bind _ _
      · split
        · rename_i present
          refine Leads.bind ?_ fun _ => Leads.pure slot.value
          refine (noteRead_leads (by simpa using present)).mono ?_ fun _ => id
          exact fun state holds => ⟨holds.1.1, holds.2, fun e current => holds.1.2 e slot current holds.2⟩
        · exact (Leads.pure slot.value).mono (fun _ holds => holds.1.1) fun _ => id

theorem Keeps.updateCell (obeys : Obeys self) {cell : CellId} {body : ν → Run P σ ν ν} (keeps : ∀ old, Keeps (body old)) :
    Keeps (updateCell self cell body) := by
  refine Keeps.rules.updateCell self self body body fun old exempt => ?_
  refine Leads.bind (Leads.alter fun state calm => calm.quiet (Quiet.setInUse _ cell true) rfl rfl) fun _ => ?_
  refine (keeps old exempt).bind fun value => (store_leads cell value).bind fun _ => ?_
  refine Leads.bind (Leads.alter fun state holds => ?_) fun _ => notify_leads obeys cell
  have quiet : Quiet exempt state.graph (state.graph.setInUse cell false) := Quiet.setInUse _ cell false
  exact ⟨⟨holds.1.quiet quiet, holds.2⟩, quiet.grows, rfl, rfl⟩

theorem Keeps.steps (obeys : Obeys self) : RunSteps (fun (run : Run P σ ν _) _ => Keeps run) self self where
  toRunRules := Keeps.rules
  state change exempt state result next calm ok := by
    cases ok
    exact ⟨⟨{ calm.1 with }, calm.2⟩, .refl _, rfl, rfl⟩
  perform := obeys.perform
  newSignal value := Keeps.newCell (some value)
  newComputed := Keeps.newComputed obeys
  newEffect task := Keeps.newReaction obeys (.effect task)
  newRoot := Keeps.change (fun _ graph => Quiet.newOwner graph none none) (fun _ => rfl) fun _ => rfl
  onDispose task := by
    refine Keeps.alter (fun _ graph => Quiet.addCleanup graph task) ?_ ?_ <;> intro graph <;>
      unfold addCleanup <;> split <;> rfl
  dispose := Keeps.dispose obeys
  read := Keeps.read
  write := Keeps.write obeys
  inBatch := Keeps.inBatch obeys
  unobserved owner keeps _ := (Leads.inContext keeps owner none).mono (fun _ calm => ⟨calm, by simp⟩) fun _ => id
  update := Keeps.updateCell obeys

theorem Keeps.program (obeys : Obeys self) {α : Type} (program : Program P σ ν α) : Keeps (program.run self) :=
  (Keeps.steps obeys).program program

theorem Obeys.step [BEq ν] (obeys : Obeys self) (meaning : Interpretation P σ ν) : Obeys (Job.step meaning self) where
  perform task := Keeps.program obeys (meaning task)
  dispose e := Keeps.dispose obeys e
  rerun _ e := rerun_leads obeys e
  drain _ := drain_leads obeys

theorem Obeys.run [BEq ν] (meaning : Interpretation P σ ν) (fuel : Nat) : Obeys (Job.run meaning fuel) := by
  induction fuel with
  | zero => exact ⟨fun _ _ => Leads.throw _, fun _ _ => Leads.throw _, fun _ _ => Leads.throw _, fun _ => Leads.throw _⟩
  | succ _ ih => exact ih.step meaning

end Jobs

section Calls

theorem Calm.start (outside : σ) : Calm (P := P) (ν := ν) ∅ { outside } := by
  refine ⟨?_, fun _ _ => rfl⟩
  constructor <;> simp [get?, Table.find?]

variable [BEq ν]

/-- The states between calls: one call after the other is made from outside of all reactions, and each returns. -/
inductive Reached (meaning : Interpretation P σ ν) : State P σ ν → Prop where
  | start (outside : σ) : Reached @meaning { outside }
  | call {α : Type} {state next : State P σ ν} (before : Reached @meaning state) (program : Program P σ ν α)
      (fuel : Nat) {result : α} (returns : program.execute meaning fuel state = .ok result next) : Reached @meaning next

theorem Reached.calm {meaning : Interpretation P σ ν} {state : State P σ ν} (reached : Reached meaning state) :
    Calm ∅ state ∧ state.graph.flushing = false ∧ state.graph.batchDepth = 0 := by
  induction reached with
  | start outside => exact ⟨Calm.start outside, rfl, rfl⟩
  | call _ program fuel returns ih =>
    obtain ⟨calm, still, flat⟩ := ih
    obtain ⟨calm, follows⟩ := Keeps.program (Obeys.run meaning fuel) program ∅ _ _ _ calm returns
    exact ⟨calm, follows.flushing_eq.trans still, follows.batchDepth_eq.trans flat⟩

/-- No update is lost: between calls no batch is open, no reaction that is still there waits to run, and none has
read a cell, still there too, which was given a value since. -/
theorem no_update_lost {meaning : Interpretation P σ ν} {state : State P σ ν} (reached : Reached meaning state) :
    state.graph.batchDepth = 0 ∧ ∀ e, state.graph.ownerAlive e →
      e ∉ state.graph.queue ∧ ∀ cell, state.graph.cellAlive cell → ¬ Stale state.history e cell := by
  obtain ⟨⟨sound, idle⟩, still, flat⟩ := reached.calm
  have empty := idle still flat
  refine ⟨flat, fun e alive => ⟨by simp [empty], fun cell present stale => ?_⟩⟩
  obtain ⟨owner, there⟩ := isSome_iff_exists.mp alive
  obtain ⟨slot, found⟩ := isSome_iff_exists.mp present
  have waiting := sound.waits e owner there (by simp) cell slot found (by simp) stale
  simp [empty] at waiting

end Calls

inductive Copying : Type → Type where
  | copy (source target : CellId) : Copying Unit

def Copying.meaning : Interpretation Copying Unit Nat
  | _, .copy source target => do
    let value ← Program.get true source
    Program.perform (.write target value)

def copyThenWrite : Program Copying Unit Nat Unit := do
  let source ← Program.perform (.newSignal 1)
  let target ← Program.perform (.newSignal 0)
  let _ ← Program.perform (.newEffect (.copy source target))
  Program.perform (.write source 2)

theorem no_update_lost_copy : ∃ state, Reached Copying.meaning state ∧ state.graph.ownerAlive 3 ∧
    state.graph.cellAlive 1 ∧ .wrote 1 ∈ state.history ∧ HasRead state.history 3 1 ∧ ¬ Stale state.history 3 1 := by
  have ran : (match copyThenWrite.execute Copying.meaning 9 { outside := () } with
      | .ok _ state => decide (state.history =
          [.wrote 2, .read 3 1, .began 3, .wrote 1, .wrote 2, .read 3 1, .began 3]) &&
        state.graph.ownerAlive 3 && state.graph.cellAlive 1
      | .error _ _ => false) = true := by decide +kernel
  split at ran
  · rename_i state returns
    simp only [Bool.and_eq_true, decide_eq_true_eq] at ran
    obtain ⟨⟨happened, alive⟩, present⟩ := ran
    have reached : Reached Copying.meaning state := .call (.start ()) copyThenWrite 9 returns
    have fresh := ((no_update_lost reached).2 3 alive).2 1 present
    refine ⟨state, reached, alive, present, ?_, ?_, fresh⟩
    · simp [happened]
    · exact ⟨[.wrote 2], _, happened, by simp⟩
  · cases ran

end LiveMarkup.Reactive
