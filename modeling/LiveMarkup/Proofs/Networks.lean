import LiveMarkup.Proofs.Execution

/-!
Networks of signals, computed values and effects, made one after the other under one root. The functions of a network
write nothing and make nothing: they read, with tracking, what was defined before them. Every run of a function leaves
an observation, which says whose run it was and what it has read. `Laid` says how the graph of a network looks when
it is known what the latest run of each function has read.
-/

namespace LiveMarkup.Reactive
open List Function Reactive.Graph Nat

/-- A function that reads values one after the other and gives a result. Which value comes next may depend on those
already read; definitions are named by their places. -/
inductive Reader (ν α : Type) where
  | give (result : α)
  | read (source : Nat) (next : ν → Reader ν α)

namespace Reader

variable {ν α : Type} {values other : Nat → ν} {allowed wider : Nat → Prop} {f : Reader ν α} {entry : Nat × ν}

def eval (values : Nat → ν) : Reader ν α → α
  | give result => result
  | read source next => (next (values source)).eval values

def seen (values : Nat → ν) : Reader ν α → List (Nat × ν)
  | give _ => []
  | read source next => (source, values source) :: (next (values source)).seen values

def Within (allowed : Nat → Prop) : Reader ν α → Prop
  | give _ => True
  | read source next => allowed source ∧ ∀ value, (next value).Within allowed

theorem congr (f : Reader ν α) (same : ∀ entry ∈ f.seen values, other entry.1 = values entry.1) :
    f.eval other = f.eval values ∧ f.seen other = f.seen values := by
  induction f with
  | give => exact ⟨rfl, rfl⟩
  | read source _ ih =>
    simp only [seen, forall_mem_cons] at same
    obtain ⟨evaluates, sees⟩ := ih (values source) same.2
    simp only [eval, seen, same.1]
    exact ⟨evaluates, by rw [sees]⟩

theorem eq_of_mem_seen (mem : entry ∈ f.seen values) : entry.2 = values entry.1 := by
  induction f with
  | give => simp [seen] at mem
  | read _ _ ih =>
    rcases mem_cons.mp mem with rfl | later
    · rfl
    · exact ih _ later

theorem Within.allows (within : f.Within allowed) (mem : entry ∈ f.seen values) : allowed entry.1 := by
  induction f with
  | give => simp [seen] at mem
  | read _ _ ih =>
    rcases mem_cons.mp mem with rfl | later
    · exact within.1
    · exact ih _ (within.2 _) later

theorem Within.mono (within : f.Within allowed) (weaker : ∀ j, allowed j → wider j) : f.Within wider := by
  induction f with
  | give => trivial
  | read _ _ ih => exact ⟨weaker _ within.1, fun value => ih value (within.2 value)⟩

end Reader

/-- A run of the function of a definition, and what it has read. -/
structure Observation (ν : Type) where
  reaction : Nat
  seen : List (Nat × ν)
  deriving Repr, BEq, DecidableEq

abbrev Log (ν : Type) := List (Observation ν)

def lastSeen {ν : Type} (reaction : Nat) (log : Log ν) : Option (List (Nat × ν)) :=
  (log.find? (·.reaction = reaction)).map Observation.seen

/-- A function of a definition, which finds what it reads by the numbers of the definitions before it. -/
structure Task (ν α : Type) where
  index : Nat
  handles : List Nat
  function : Reader ν α

inductive Definition (ν : Type) where
  | signal (value : ν)
  | computed (function : Reader ν ν)
  | effect (function : Reader ν Unit)

namespace Definition

variable {ν : Type}

def holds : Definition ν → Bool
  | signal _ => true
  | computed _ => true
  | effect _ => false

def reacts : Definition ν → Bool
  | signal _ => false
  | computed _ => true
  | effect _ => true

def seen (values : Nat → ν) : Definition ν → List (Nat × ν)
  | signal _ => []
  | computed f => f.seen values
  | effect f => f.seen values

def Within (allowed : Nat → Prop) : Definition ν → Prop
  | signal _ => True
  | computed f => f.Within allowed
  | effect f => f.Within allowed

/-- The values after a definition at a place has been computed anew. -/
def refresh (i : Nat) (values : Nat → ν) : Definition ν → Nat → ν
  | signal _ => values
  | computed f => Function.update values i (f.eval values)
  | effect _ => values

variable {d : Definition ν} {values other : Nat → ν} {allowed : Nat → Prop} {i j : Nat}

theorem refresh_of_ne (differs : j ≠ i) : d.refresh i values j = values j := by
  cases d with
  | signal => rfl
  | computed => exact update_of_ne differs ..
  | effect => rfl

theorem refresh_eq_self (same : d.refresh i values i = values i) : d.refresh i values = values := by
  funext j
  by_cases here : j = i
  · rw [here, same]
  · exact refresh_of_ne here

theorem Within.mono {wider : Nat → Prop} (within : d.Within allowed) (weaker : ∀ j, allowed j → wider j) :
    d.Within wider := by
  cases d with
  | signal => trivial
  | computed | effect => exact Reader.Within.mono within weaker

theorem Within.allows (within : d.Within allowed) {entry : Nat × ν} (mem : entry ∈ d.seen values) :
    allowed entry.1 := by
  cases d with
  | signal => simp [seen] at mem
  | computed | effect => exact Reader.Within.allows within mem

theorem eq_of_mem_seen {entry : Nat × ν} (mem : entry ∈ d.seen values) : entry.2 = values entry.1 := by
  cases d with
  | signal => simp [seen] at mem
  | computed | effect => exact Reader.eq_of_mem_seen mem

theorem seen_congr (same : ∀ entry ∈ d.seen values, other entry.1 = values entry.1) : d.seen other = d.seen values := by
  cases d with
  | signal => rfl
  | computed f => exact (f.congr same).2
  | effect f => exact (f.congr same).2

theorem refresh_congr (same : ∀ entry ∈ d.seen values, other entry.1 = values entry.1) (here : other i = values i) :
    d.refresh i other i = d.refresh i values i := by
  cases d with
  | signal => exact here
  | computed f => simp only [refresh, update_self, (f.congr same).1]
  | effect => exact here

end Definition

section Programs

variable {ν : Type}

def Reader.program {α : Type} (handles : List Nat) :
    Reader ν α → List (Nat × ν) → Program (Task ν) (Log ν) ν (α × List (Nat × ν))
  | give result, seen => return (result, seen)
  | read source next, seen => do
    let value ← Program.get true (handles.getD source 0)
    (next value).program handles (seen ++ [(source, value)])

/-- A function reads what it needs, and what it has read is observed. -/
def Task.meaning : Interpretation (Task ν) (Log ν) ν
  | _, task => do
    let (result, seen) ← task.function.program task.handles []
    Program.altering (⟨task.index, seen⟩ :: ·)
    return result

def Definition.create (handles : List Nat) : Definition ν → Program (Task ν) (Log ν) ν Nat
  | signal value => Program.perform (.newSignal value)
  | computed f => Program.perform (.newComputed ⟨handles.length, handles, f⟩)
  | effect f => Program.perform (.newEffect ⟨handles.length, handles, f⟩)

def createAll : List (Definition ν) → List Nat → Program (Task ν) (Log ν) ν (List Nat)
  | [], handles => return handles
  | d :: rest, handles => do
    let handle ← d.create handles
    createAll rest (handles ++ [handle])

def writeAll (handles : List Nat) (writes : List (Nat × ν)) : Program (Task ν) (Log ν) ν Unit :=
  writes.forM fun entry => Program.perform (.write (handles.getD entry.1 0) entry.2)

/-- Makes definitions under one root and then writes, one batch after the other. -/
def session (defs : List (Definition ν)) (batches : List (List (Nat × ν))) : Program (Task ν) (Log ν) ν (List Nat) := do
  let (handles, _) ← Program.underRoot (createAll defs [])
  batches.forM fun writes => Program.batch (writeAll handles writes)
  return handles

end Programs

section Meaning

variable {ν : Type} {defs : List (Definition ν)} {signals : Nat → ν} {i : Nat} {other : Nat → ν}

/-- Every definition reads only signals and computed values that are defined before it. -/
def Scoped (defs : List (Definition ν)) : Prop :=
  ∀ i (d : Definition ν), defs[i]? = some d → d.Within fun j => j < i ∧ ∃ source, defs[j]? = some source ∧ source.holds = true

def recomputeFrom (values : Nat → ν) (first : Nat) : List (Definition ν) → Nat → ν
  | [] => values
  | d :: rest => recomputeFrom (d.refresh first values) (first + 1) rest

def recompute (defs : List (Definition ν)) (signals : Nat → ν) : Nat → ν := recomputeFrom signals 0 defs

def initial [Inhabited ν] (defs : List (Definition ν)) (i : Nat) : ν :=
  match defs[i]? with
  | some (.signal value) => value
  | _ => default

def written (signals : Nat → ν) (writes : List (Nat × ν)) : Nat → ν :=
  writes.foldl (fun signals entry => Function.update signals entry.1 entry.2) signals

def WritesSignals (defs : List (Definition ν)) (writes : List (Nat × ν)) : Prop :=
  ∀ entry ∈ writes, ∃ value, defs[entry.1]? = some (.signal value)

theorem written_append (signals : Nat → ν) (writes more : List (Nat × ν)) :
    written signals (writes ++ more) = written (written signals writes) more :=
  foldl_append ..

theorem written_of_not_mem {writes : List (Nat × ν)} (signals : Nat → ν) (absent : i ∉ writes.map Prod.fst) :
    written signals writes i = signals i := by
  induction writes generalizing signals with
  | nil => rfl
  | cons _ _ ih =>
    rw [map_cons, mem_cons, not_or] at absent
    exact (ih _ absent.2).trans (update_of_ne absent.1 ..)

theorem written_congr (writes : List (Nat × ν)) (same : other i = signals i) :
    written other writes i = written signals writes i := by
  induction writes generalizing signals other with
  | nil => exact same
  | cons entry _ ih =>
    refine ih ?_
    show update other entry.1 entry.2 i = update signals entry.1 entry.2 i
    by_cases here : i = entry.1
    · rw [here, update_self, update_self]
    · rw [update_of_ne here, update_of_ne here, same]

theorem recomputeFrom_append (defs more : List (Definition ν)) (values : Nat → ν) (first : Nat) :
    recomputeFrom values first (defs ++ more) =
      recomputeFrom (recomputeFrom values first defs) (first + defs.length) more := by
  induction defs generalizing values first with
  | nil => rfl
  | cons _ _ ih =>
    rw [cons_append, recomputeFrom, ih, recomputeFrom, length_cons, Nat.add_assoc, Nat.add_comm 1]

theorem recompute_append_singleton (defs : List (Definition ν)) (d : Definition ν) (signals : Nat → ν) :
    recompute (defs ++ [d]) signals = d.refresh defs.length (recompute defs signals) := by
  rw [recompute, recomputeFrom_append, Nat.zero_add]
  rfl

def Consistent (defs : List (Definition ν)) (values : Nat → ν) : Prop :=
  ∀ i (d : Definition ν), defs[i]? = some d → d.refresh i values i = values i

theorem Scoped.left {more : List (Definition ν)} (ordered : Scoped (defs ++ more)) : Scoped defs := by
  intro i d found
  have mem := (List.getElem?_eq_some_iff.mp found).1
  have whole : (defs ++ more)[i]? = some d := by rwa [getElem?_append_left mem]
  refine (ordered i d whole).mono ?_
  rintro _ ⟨before, source, there, holds⟩
  rw [getElem?_append_left (lt_trans before mem)] at there
  exact ⟨before, source, there, holds⟩

theorem recompute_above (above : defs.length ≤ i) : recompute defs signals i = signals i := by
  induction defs using reverseRecOn with
  | nil => rfl
  | append_singleton _ _ ih =>
    rw [length_append, length_singleton] at above
    rw [recompute_append_singleton, Definition.refresh_of_ne (by omega), ih (by omega)]

theorem recompute_signal {value : ν} (found : defs[i]? = some (.signal value)) : recompute defs signals i = signals i := by
  induction defs using List.reverseRecOn with
  | nil => simp at found
  | append_singleton defs d ih =>
    rw [recompute_append_singleton]
    by_cases last : i = defs.length
    · subst last
      obtain rfl : d = .signal value := by simpa using found
      exact recompute_above (le_refl _)
    · have mem : i < defs.length := by
        have bound := (List.getElem?_eq_some_iff.mp found).1
        rw [length_append, length_singleton] at bound
        omega
      rw [getElem?_append_left mem] at found
      rw [Definition.refresh_of_ne last, ih found]

theorem recompute_consistent (ordered : Scoped defs) (signals : Nat → ν) : Consistent defs (recompute defs signals) := by
  induction defs using List.reverseRecOn with
  | nil => simp [Consistent]
  | append_singleton defs d ih =>
    intro i e found
    have mem : i ≤ defs.length := by
      have bound := (List.getElem?_eq_some_iff.mp found).1
      rw [length_append, length_singleton] at bound
      omega
    have kept : ∀ j, j < defs.length → recompute (defs ++ [d]) signals j = recompute defs signals j := by
      intro j before
      rw [recompute_append_singleton]
      exact Definition.refresh_of_ne (Nat.ne_of_lt before)
    have reads : ∀ entry ∈ e.seen (recompute defs signals),
        recompute (defs ++ [d]) signals entry.1 = recompute defs signals entry.1 := by
      intro entry read
      exact kept _ (Nat.lt_of_lt_of_le ((ordered i e found).allows read).1 mem)
    rcases Nat.lt_or_eq_of_le mem with before | rfl
    · rw [getElem?_append_left before] at found
      rw [Definition.refresh_congr reads (kept i before), ih ordered.left i e found, kept i before]
    · obtain rfl : d = e := by simpa using found
      rw [recompute_append_singleton] at reads ⊢
      cases d with
      | signal => rfl
      | effect => rfl
      | computed f =>
        simp only [Definition.refresh, update_self]
        exact (f.congr reads).1

theorem recompute_congr (ordered : Scoped defs) (same : ∀ i value, defs[i]? = some (.signal value) → other i = signals i)
    {d : Definition ν} (found : defs[i]? = some d) (holds : d.holds = true) :
    recompute defs other i = recompute defs signals i := by
  induction i using Nat.strong_induction_on generalizing d with
  | _ i ih =>
    cases d with
    | signal value => rw [recompute_signal found, recompute_signal found, same i value found]
    | effect => cases holds
    | computed f =>
      have reads : ∀ entry ∈ Definition.seen (recompute defs signals) (.computed f),
          recompute defs other entry.1 = recompute defs signals entry.1 := by
        intro entry read
        obtain ⟨before, _, there, holding⟩ := (ordered i _ found).allows read
        exact ih entry.1 before there holding
      have one := recompute_consistent ordered other i _ found
      have two := recompute_consistent ordered signals i _ found
      simp only [Definition.refresh, update_self] at one two
      rw [← one, ← two, (f.congr reads).1]

end Meaning

section Wiring

structure Net (ν : Type) where
  defs : List (Definition ν)
  handles : List Nat

namespace Net

variable {ν : Type} (net : Net ν)

def handle (i : Nat) : Nat := net.handles.getD i 0

def reactor (i : Nat) : OwnerId :=
  match net.defs[i]? with
  | some (.computed _) => net.handle i + 1
  | _ => net.handle i

def body (i : Nat) : Option (Body (Task ν) ν) :=
  match net.defs[i]? with
  | some (.computed f) => some (.computed (net.handle i) ⟨i, net.handles.take i, f⟩)
  | some (.effect f) => some (.effect ⟨i, net.handles.take i, f⟩)
  | _ => none

def Holds (i : Nat) : Prop := ∃ d, net.defs[i]? = some d ∧ d.holds = true

def Reacts (i : Nat) : Prop := ∃ d, net.defs[i]? = some d ∧ d.reacts = true

variable {net} {i : Nat}

theorem handle_le_reactor : net.handle i ≤ net.reactor i := by
  unfold reactor
  split <;> omega

theorem Holds.lt (holds : net.Holds i) : i < net.defs.length := by
  obtain ⟨_, found, _⟩ := holds
  exact (List.getElem?_eq_some_iff.mp found).1

theorem Reacts.lt (reacts : net.Reacts i) : i < net.defs.length := by
  obtain ⟨_, found, _⟩ := reacts
  exact (List.getElem?_eq_some_iff.mp found).1

end Net

variable {ν : Type}

def Graph.valueOf {P : Type → Type} (graph : Graph P ν) (cell : CellId) : Option ν :=
  (graph.cells.get? cell).bind Cell.value

structure KnowsReaders (net : Net ν) (reads : Nat → List Nat) (i : Nat) (slot : Cell ν) : Prop where
  free : slot.inUse = false
  sorted : slot.subscribers.Pairwise (· < ·)
  mem_iff : ∀ e, e ∈ slot.subscribers ↔ ∃ k, net.Reacts k ∧ e = net.reactor k ∧ i ∈ reads k

structure KnowsSources (net : Net ν) (reads : Nat → List Nat) (i : Nat) (owner : Owner (Task ν) ν) : Prop where
  body_eq : owner.body = net.body i
  children_eq : owner.children = []
  cleanups_eq : owner.cleanups = []
  cells_eq : owner.cells = []
  mem_iff : ∀ c, c ∈ owner.sources ↔ ∃ j ∈ reads i, c = net.handle j

/-- A network is laid in a graph; `reads` says what the latest run of each reaction has read. -/
structure Laid (net : Net ν) (reads : Nat → List Nat) (graph : Graph (Task ν) ν) : Prop where
  length_eq : net.handles.length = net.defs.length
  order : ∀ {i j}, i < j → j < net.defs.length → net.reactor i < net.handle j
  bound : ∀ {i}, i < net.defs.length → net.reactor i < graph.nextId
  cell : ∀ {i}, net.Holds i → ∃ slot, graph.cells.get? (net.handle i) = some slot ∧ KnowsReaders net reads i slot
  owner : ∀ {i}, net.Reacts i → ∃ o, graph.owners.get? (net.reactor i) = some o ∧ KnowsSources net reads i o
  reads_hold : ∀ {i j}, net.Reacts i → j ∈ reads i → net.Holds j

namespace Laid

variable {net : Net ν} {reads : Nat → List Nat} {graph next : Graph (Task ν) ν} {i j : Nat}

section

variable (laid : Laid net reads graph)
include laid

theorem handle_lt (before : i < j) (mem : j < net.defs.length) : net.handle i < net.handle j :=
  Net.handle_le_reactor.trans_lt (laid.order before mem)

theorem reactor_lt (before : i < j) (mem : j < net.defs.length) : net.reactor i < net.reactor j :=
  (laid.order before mem).trans_le Net.handle_le_reactor

theorem handle_inj (one : i < net.defs.length) (two : j < net.defs.length)
    (same : net.handle i = net.handle j) : i = j := by
  rcases lt_trichotomy i j with less | equal | greater
  · exact absurd same (laid.handle_lt less two).ne
  · exact equal
  · exact absurd same (laid.handle_lt greater one).ne'

theorem reactor_inj (one : i < net.defs.length) (two : j < net.defs.length)
    (same : net.reactor i = net.reactor j) : i = j := by
  rcases lt_trichotomy i j with less | equal | greater
  · exact absurd same (laid.reactor_lt less two).ne
  · exact equal
  · exact absurd same (laid.reactor_lt greater one).ne'

theorem lt_of_reactor_lt (one : i < net.defs.length) (less : net.reactor i < net.reactor j) : i < j := by
  by_contra above
  rcases lt_or_eq_of_le (not_lt.mp above) with before | rfl
  · exact absurd (laid.reactor_lt before one) (lt_asymm less)
  · exact lt_irrefl _ less

theorem congr (cells : next.cells = graph.cells) (owners : next.owners = graph.owners)
    (nextId : next.nextId = graph.nextId) : Laid net reads next where
  length_eq := laid.length_eq
  order := laid.order
  bound mem := nextId ▸ laid.bound mem
  cell holds := cells ▸ laid.cell holds
  owner reacts := owners ▸ laid.owner reacts
  reads_hold := laid.reads_hold

theorem congr_reads {other : Nat → List Nat} (same : ∀ i, net.Reacts i → other i = reads i) : Laid net other graph where
  length_eq := laid.length_eq
  order := laid.order
  bound := laid.bound
  cell := by
    intro i holds
    obtain ⟨slot, there, readers⟩ := laid.cell holds
    refine ⟨slot, there, readers.free, readers.sorted, fun e => ?_⟩
    rw [readers.mem_iff]
    refine exists_congr fun k => and_congr_right fun acts => ?_
    rw [same k acts]
  owner := by
    intro i acts
    obtain ⟨o, there, knows⟩ := laid.owner acts
    refine ⟨o, there, knows.body_eq, knows.children_eq, knows.cleanups_eq, knows.cells_eq, fun c => ?_⟩
    rw [knows.mem_iff, same i acts]
  reads_hold acts read := laid.reads_hold acts (same _ acts ▸ read)

theorem opened {owner : Owner (Task ν) ν} (reacts : net.Reacts i)
    (found : graph.owners.get? (net.reactor i) = some owner) (knows : KnowsSources net reads i owner) :
    Laid net (update reads i []) (graph.opened (net.reactor i) owner.sources) where
  length_eq := laid.length_eq
  order := laid.order
  bound := laid.bound
  cell := by
    intro j holds
    obtain ⟨slot, there, readers⟩ := laid.cell holds
    have source : net.handle j ∈ owner.sources ↔ j ∈ reads i := by
      rw [knows.mem_iff]
      refine ⟨?_, fun mem => ⟨j, mem, rfl⟩⟩
      rintro ⟨_, mem, same⟩
      exact laid.handle_inj holds.lt (laid.reads_hold reacts mem).lt same ▸ mem
    have left : ∀ e, (e ∈ slot.subscribers ∧ e ≠ net.reactor i) ↔
        ∃ k, net.Reacts k ∧ e = net.reactor k ∧ j ∈ update reads i [] k := by
      intro e
      rw [readers.mem_iff]
      constructor
      · rintro ⟨⟨k, acts, rfl, _⟩, apart⟩
        have other : k ≠ i := fun same => apart (same ▸ rfl)
        exact ⟨k, acts, rfl, by rwa [update_of_ne other]⟩
      · rintro ⟨k, acts, rfl, mem⟩
        have other : k ≠ i := by
          rintro rfl
          simp at mem
        rw [update_of_ne other] at mem
        exact ⟨⟨k, acts, rfl, mem⟩, fun same => other (laid.reactor_inj acts.lt reacts.lt same)⟩
    rw [cells_opened, there]
    by_cases read : j ∈ reads i
    · rw [if_pos (source.mpr read)]
      refine ⟨_, rfl, readers.free, readers.sorted.filter _, fun e => ?_⟩
      rw [← left e]
      simp
    · rw [if_neg fun mem => read (source.mp mem)]
      refine ⟨slot, rfl, readers.free, readers.sorted, fun e => ?_⟩
      rw [← left e]
      refine ⟨fun mem => ⟨mem, ?_⟩, And.left⟩
      rintro rfl
      obtain ⟨_, acts, same, mem⟩ := (readers.mem_iff _).mp mem
      exact read (laid.reactor_inj reacts.lt acts.lt same ▸ mem)
  owner := by
    intro k acts
    obtain ⟨o, there, stands⟩ := laid.owner acts
    rw [owners_opened, there]
    by_cases same : k = i
    · subst same
      rw [if_pos rfl]
      exact ⟨_, rfl, stands.body_eq, rfl, rfl, rfl, fun c => by simp⟩
    · rw [if_neg fun equal => same (laid.reactor_inj acts.lt reacts.lt equal)]
      refine ⟨o, rfl, stands.body_eq, stands.children_eq, stands.cleanups_eq, stands.cells_eq, fun c => ?_⟩
      rw [update_of_ne same]
      exact stands.mem_iff c
  reads_hold := by
    intro k j acts mem
    by_cases same : k = i
    · subst same
      simp at mem
    · rw [update_of_ne same] at mem
      exact laid.reads_hold acts mem

theorem track (reacts : net.Reacts i) (holds : net.Holds j) (observer : graph.observer = some (net.reactor i)) :
    Laid net (update reads i (reads i ++ [j])) (graph.track (net.handle j)) := by
  obtain ⟨slot, there, _⟩ := laid.cell holds
  have alive : graph.cellAlive (net.handle j) = true := by simp [Graph.cellAlive, Table.contains, there]
  have tracked : graph.track (net.handle j) = { graph with
      cells := graph.cells.modify (net.handle j) fun c =>
        { c with subscribers := insertSorted (net.reactor i) c.subscribers }
      owners := graph.owners.modify (net.reactor i) fun o =>
        { o with sources := if o.sources.contains (net.handle j) then o.sources else net.handle j :: o.sources } } := by
    rw [Graph.track, observer]
    simp [alive]
  have mem_reads : ∀ k m, m ∈ update reads i (reads i ++ [j]) k ↔ m ∈ reads k ∨ k = i ∧ m = j := by
    intro k m
    by_cases same : k = i
    · subst same
      simp
    · simp [same]
  rw [tracked]
  refine ⟨laid.length_eq, laid.order, laid.bound, ?_, ?_, ?_⟩
  · intro m holding
    obtain ⟨held, found, knows⟩ := laid.cell holding
    show ∃ slot, (Table.modify _ _ _).get? _ = some slot ∧ _
    rw [Table.get?_modify, found]
    by_cases same : m = j
    · subst same
      rw [if_pos rfl]
      refine ⟨_, rfl, knows.free, pairwise_insertSorted knows.sorted, fun e => ?_⟩
      rw [mem_insertSorted, knows.mem_iff]
      simp only [mem_reads]
      constructor
      · rintro (rfl | ⟨k, acts, rfl, mem⟩)
        · exact ⟨i, reacts, rfl, .inr ⟨rfl, trivial⟩⟩
        · exact ⟨k, acts, rfl, .inl mem⟩
      · rintro ⟨k, acts, rfl, mem | ⟨rfl, -⟩⟩
        · exact .inr ⟨k, acts, rfl, mem⟩
        · exact .inl rfl
    · rw [if_neg fun equal => same (laid.handle_inj holding.lt holds.lt equal)]
      refine ⟨held, rfl, knows.free, knows.sorted, fun e => ?_⟩
      rw [knows.mem_iff]
      simp [mem_reads, same]
  · intro k acts
    obtain ⟨o, found, knows⟩ := laid.owner acts
    show ∃ o, (Table.modify _ _ _).get? _ = some o ∧ _
    rw [Table.get?_modify, found]
    by_cases same : k = i
    · subst same
      rw [if_pos rfl]
      refine ⟨_, rfl, knows.body_eq, knows.children_eq, knows.cleanups_eq, knows.cells_eq, fun c => ?_⟩
      have added : c ∈ (if o.sources.contains (net.handle j) then o.sources else net.handle j :: o.sources) ↔
          c ∈ o.sources ∨ c = net.handle j := by
        split
        · rename_i mem
          have mem : net.handle j ∈ o.sources := by simpa using mem
          exact ⟨.inl, fun either => either.elim id fun equal => equal ▸ mem⟩
        · rw [mem_cons]
          exact Or.comm
      rw [added, knows.mem_iff]
      simp only [mem_reads]
      constructor
      · rintro (⟨m, mem, rfl⟩ | rfl)
        · exact ⟨m, .inl mem, rfl⟩
        · exact ⟨j, .inr ⟨trivial, rfl⟩, rfl⟩
      · rintro ⟨m, mem | ⟨-, rfl⟩, rfl⟩
        · exact .inl ⟨m, mem, rfl⟩
        · exact .inr rfl
    · rw [if_neg fun equal => same (laid.reactor_inj acts.lt reacts.lt equal)]
      refine ⟨o, rfl, knows.body_eq, knows.children_eq, knows.cleanups_eq, knows.cells_eq, fun c => ?_⟩
      rw [knows.mem_iff, update_of_ne same]
  · intro k m acts mem
    rcases (mem_reads k m).mp mem with old | ⟨-, rfl⟩
    · exact laid.reads_hold acts old
    · exact holds

theorem store (cell : CellId) (value : ν) : Laid net reads (graph.store cell value) where
  length_eq := laid.length_eq
  order := laid.order
  bound := laid.bound
  cell := by
    intro i holds
    obtain ⟨slot, there, readers⟩ := laid.cell holds
    show ∃ slot, (Table.modify _ _ _).get? _ = some slot ∧ _
    rw [Table.get?_modify, there]
    split
    · exact ⟨_, rfl, readers.free, readers.sorted, readers.mem_iff⟩
    · exact ⟨_, rfl, readers⟩
  owner := laid.owner
  reads_hold := laid.reads_hold

end

end Laid

namespace Graph

variable {P : Type → Type} {graph : Graph P ν}

theorem track_eq (graph : Graph P ν) (cell : CellId) :
    graph.track cell = { graph with cells := (graph.track cell).cells, owners := (graph.track cell).owners } := by
  unfold track
  split
  · rfl
  · split <;> rfl

theorem valueOf_track (graph : Graph P ν) (cell other : CellId) : (graph.track cell).valueOf other = graph.valueOf other := by
  unfold track
  split
  · rfl
  · split
    · show ((Table.modify _ _ _).get? _).bind _ = _
      rw [Table.get?_modify]
      split
      · cases found : graph.cells.get? other <;> simp [valueOf, found]
      · rfl
    · rfl

theorem valueOf_opened (graph : Graph P ν) (id : OwnerId) (sources : List CellId) (cell : CellId) :
    (graph.opened id sources).valueOf cell = graph.valueOf cell := by
  unfold valueOf
  rw [cells_opened]
  split
  · cases found : graph.cells.get? cell <;> simp
  · rfl

theorem valueOf_store {cell : CellId} (alive : (graph.cells.get? cell).isSome) (value : ν) (other : CellId) :
    (graph.store cell value).valueOf other = if other = cell then some value else graph.valueOf other := by
  show ((Table.modify _ _ _).get? _).bind _ = _
  rw [Table.get?_modify]
  split
  · rename_i same
    subst same
    obtain ⟨_, found⟩ := Option.isSome_iff_exists.mp alive
    simp [found]
  · rfl

end Graph

def Stored (net : Net ν) (graph : Graph (Task ν) ν) (values : Nat → ν) : Prop :=
  ∀ i, net.Holds i → graph.valueOf (net.handle i) = some (values i)

def Graph.put {P : Type → Type} (graph : Graph P ν) (cell : CellId) (value : ν) : Graph P ν :=
  (graph.store cell value).enqueueSubscribers cell

section Puts

variable {net : Net ν} {reads : Nat → List Nat} {graph : Graph (Task ν) ν} {values : Nat → ν} {i : Nat} {cell : CellId}
  {value : ν}
variable {P : Type → Type}

theorem Graph.put_eq {graph : Graph P ν} : graph.put cell value =
    { graph with cells := (graph.store cell value).cells, queue := (graph.put cell value).queue } := by
  unfold put enqueueSubscribers
  split <;> rfl

theorem Graph.pairwise_put {graph : Graph P ν} (order : graph.queue.Pairwise (· < ·)) :
    (graph.put cell value).queue.Pairwise (· < ·) := by
  unfold put enqueueSubscribers
  split
  · exact order
  · exact pairwise_foldl_insertSorted order

theorem Laid.put (laid : Laid net reads graph) : Laid net reads (graph.put cell value) := by
  rw [put_eq]
  exact (laid.store cell value).congr rfl rfl rfl

theorem Laid.mem_put (laid : Laid net reads graph) (holds : net.Holds i) (e : OwnerId) :
    e ∈ (graph.put (net.handle i) value).queue ↔
      e ∈ graph.queue ∨ ∃ k, net.Reacts k ∧ e = net.reactor k ∧ i ∈ reads k := by
  obtain ⟨slot, there, readers⟩ := (laid.store (net.handle i) value).cell holds
  unfold Graph.put Graph.enqueueSubscribers
  rw [there]
  show e ∈ slot.subscribers.foldl (fun queue id => insertSorted id queue) graph.queue ↔ _
  rw [mem_foldl_insertSorted, readers.mem_iff, or_comm]

theorem Stored.put (stored : Stored net graph values) (laid : Laid net reads graph) (holds : net.Holds i) :
    Stored net (graph.put (net.handle i) value) (update values i value) := by
  intro j holding
  obtain ⟨_, there, _⟩ := laid.cell holds
  rw [put_eq]
  show (graph.store (net.handle i) value).valueOf (net.handle j) = _
  rw [valueOf_store (by simp [there])]
  by_cases same : j = i
  · subst same
    rw [if_pos rfl, update_self]
  · rw [if_neg fun equal => same (laid.handle_inj holding.lt holds.lt equal), update_of_ne same,
      stored j holding]

end Puts

section Writing

variable [BEq ν] {P : Type → Type} {σ : Type} {meaning : Interpretation P σ ν} {graph : Graph P ν} {outside : σ}
  {level : Nat} {cell : CellId} {value : ν} {slot : Cell ν}

theorem ensures_put {post : Unit → Graph P ν → σ → Prop} (found : graph.cells.get? cell = some slot)
    (free : slot.inUse = false)
    (next : Ensures level (fun fuel => if graph.batchDepth = 0 then Run.flush (Job.run meaning fuel) else pure ())
      (graph.put cell value) outside post) :
    Ensures level (fun fuel => Run.write (Job.run meaning fuel) cell value) graph outside post := by
  have alive : (graph.store cell value).cellAlive cell = true := by
    simp [cellAlive, Table.contains, store, found]
  have depth : (graph.put cell value).batchDepth = graph.batchDepth := by rw [put_eq]
  unfold Run.write
  refine .see ?_
  rw [found]
  dsimp only
  rw [free]
  unfold Run.store Run.notify
  simp only [bind_assoc]
  refine .alter (.note (.see ?_))
  rw [alive]
  refine .alter (.see ?_)
  rw [show ((graph.store cell value).enqueueSubscribers cell).batchDepth = graph.batchDepth from depth]
  exact next

theorem ensures_put_flushing (found : graph.cells.get? cell = some slot) (free : slot.inUse = false)
    (flushing : graph.flushing = true) :
    Ensures level (fun fuel => Run.write (Job.run meaning fuel) cell value) graph outside
      fun _ graph' outside' => graph' = graph.put cell value ∧ outside' = outside := by
  refine ensures_put found free ?_
  split
  · unfold Run.flush
    refine .see ?_
    rw [show (graph.put cell value).flushing = true by rw [put_eq]; exact flushing]
    exact .pure ⟨rfl, rfl⟩
  · exact .pure ⟨rfl, rfl⟩

end Writing

section Growing

def Net.add (net : Net ν) (d : Definition ν) (handle : Nat) : Net ν := ⟨net.defs ++ [d], net.handles ++ [handle]⟩

variable {net : Net ν} {d : Definition ν} {handle i : Nat} {reads : Nat → List Nat} {graph next : Graph (Task ν) ν}

theorem Net.handle_add_last (same : net.handles.length = net.defs.length) :
    (net.add d handle).handle net.defs.length = handle := by
  simp [Net.handle, Net.add, ← same]

theorem Net.defs_add_last : (net.add d handle).defs[net.defs.length]? = some d := by
  simp [Net.add]

theorem Net.defs_add (mem : i < net.defs.length) : (net.add d handle).defs[i]? = net.defs[i]? :=
  getElem?_append_left mem

section

variable (same : net.handles.length = net.defs.length)
include same

theorem Net.handle_add (mem : i < net.defs.length) : (net.add d handle).handle i = net.handle i := by
  have old : (net.handles ++ [handle])[i]? = net.handles[i]? := getElem?_append_left (same ▸ mem)
  simp [Net.handle, Net.add, getD, old]

theorem Net.reactor_add (mem : i < net.defs.length) : (net.add d handle).reactor i = net.reactor i := by
  unfold Net.reactor
  rw [Net.defs_add mem, Net.handle_add same mem]

theorem Net.take_add_last : (net.add d handle).handles.take net.defs.length = net.handles := by
  simp [Net.add, ← same]

theorem Net.body_add (mem : i < net.defs.length) : (net.add d handle).body i = net.body i := by
  have taken : (net.add d handle).handles.take i = net.handles.take i :=
    take_append_of_le_length (by omega)
  unfold Net.body
  rw [Net.defs_add mem, Net.handle_add same mem, taken]

end

theorem Net.holds_add (mem : i < net.defs.length) : (net.add d handle).Holds i ↔ net.Holds i := by
  unfold Net.Holds
  rw [Net.defs_add mem]

theorem Net.reacts_add (mem : i < net.defs.length) : (net.add d handle).Reacts i ↔ net.Reacts i := by
  unfold Net.Reacts
  rw [Net.defs_add mem]

theorem Net.lt_or_eq_of_add (mem : i < (net.add d handle).defs.length) : i < net.defs.length ∨ i = net.defs.length := by
  simp only [Net.add, length_append, length_singleton] at mem
  omega

theorem Laid.add (laid : Laid net reads graph) (new : graph.nextId ≤ handle)
    (bound : (net.add d handle).reactor net.defs.length < next.nextId)
    (cells : ∀ c < graph.nextId, next.cells.get? c = graph.cells.get? c)
    (owners : ∀ i, net.Reacts i → next.owners.get? (net.reactor i) = graph.owners.get? (net.reactor i))
    (slot : d.holds = true → ∃ slot, next.cells.get? handle = some slot ∧ slot.inUse = false ∧ slot.subscribers = [])
    (owner : d.reacts = true → ∃ parent, next.owners.get? ((net.add d handle).reactor net.defs.length) =
      some { parent, body := (net.add d handle).body net.defs.length }) :
    Laid (net.add d handle) (update reads net.defs.length []) next := by
  have same := laid.length_eq
  have last : (net.add d handle).handle net.defs.length = handle := Net.handle_add_last same
  have mem_reads : ∀ j k, j ∈ update reads net.defs.length [] k ↔ k ≠ net.defs.length ∧ j ∈ reads k := by
    intro j k
    by_cases here : k = net.defs.length
    · simp [here]
    · simp [here]
  refine ⟨by simp [Net.add, same], ?_, ?_, ?_, ?_, ?_⟩
  · intro i j before mem
    rcases Net.lt_or_eq_of_add mem with less | rfl
    · rw [Net.reactor_add same (before.trans less), Net.handle_add same less]
      exact laid.order before less
    · rw [Net.reactor_add same before, last]
      exact (laid.bound before).trans_le new
  · intro i mem
    rcases Net.lt_or_eq_of_add mem with less | rfl
    · have old := laid.bound less
      have above := (last ▸ new).trans Net.handle_le_reactor
      rw [Net.reactor_add same less]
      exact (old.trans_le above).trans bound
    · exact bound
  · intro i holds
    rcases Net.lt_or_eq_of_add holds.lt with less | rfl
    · obtain ⟨slot, found, readers⟩ := laid.cell ((Net.holds_add less).mp holds)
      have old : net.handle i < graph.nextId := Net.handle_le_reactor.trans_lt (laid.bound less)
      rw [Net.handle_add same less, cells _ old]
      refine ⟨slot, found, readers.free, readers.sorted, fun e => ?_⟩
      rw [readers.mem_iff]
      constructor
      · rintro ⟨k, acts, rfl, read⟩
        refine ⟨k, (Net.reacts_add acts.lt).mpr acts, (Net.reactor_add same acts.lt).symm, ?_⟩
        exact (mem_reads i k).mpr ⟨acts.lt.ne, read⟩
      · rintro ⟨k, acts, rfl, read⟩
        obtain ⟨differs, read⟩ := (mem_reads i k).mp read
        have mem := (Net.lt_or_eq_of_add acts.lt).resolve_right differs
        exact ⟨k, (Net.reacts_add mem).mp acts, Net.reactor_add same mem, read⟩
    · obtain ⟨e, found, holding⟩ := holds
      obtain rfl : d = e := by simpa [Net.defs_add_last] using found
      obtain ⟨slot, there, free, none⟩ := slot holding
      rw [last]
      refine ⟨slot, there, free, by simp [none], fun e => ?_⟩
      rw [none]
      simp only [not_mem_nil, false_iff, not_exists, not_and]
      intro k acts _ read
      obtain ⟨differs, read⟩ := (mem_reads _ k).mp read
      have mem := (Net.lt_or_eq_of_add acts.lt).resolve_right differs
      exact absurd (laid.reads_hold ((Net.reacts_add mem).mp acts) read).lt (lt_irrefl _)
  · intro i acts
    rcases Net.lt_or_eq_of_add acts.lt with less | rfl
    · have reacts := (Net.reacts_add less).mp acts
      obtain ⟨o, found, knows⟩ := laid.owner reacts
      rw [Net.reactor_add same less, owners i reacts]
      refine ⟨o, found, knows.body_eq.trans (Net.body_add same less).symm, knows.children_eq, knows.cleanups_eq,
        knows.cells_eq, fun c => ?_⟩
      rw [knows.mem_iff, update_of_ne less.ne]
      refine exists_congr fun j => and_congr_right fun read => ?_
      rw [Net.handle_add same (laid.reads_hold reacts read).lt]
    · obtain ⟨e, found, reacting⟩ := acts
      obtain rfl : d = e := by simpa [Net.defs_add_last] using found
      obtain ⟨_, there⟩ := owner reacting
      exact ⟨_, there, rfl, rfl, rfl, rfl, fun c => by simp⟩
  · intro k j acts read
    obtain ⟨differs, read⟩ := (mem_reads j k).mp read
    have mem := (Net.lt_or_eq_of_add acts.lt).resolve_right differs
    have holds := laid.reads_hold ((Net.reacts_add mem).mp acts) read
    exact (Net.holds_add holds.lt).mpr holds

end Growing

end Wiring

end LiveMarkup.Reactive
