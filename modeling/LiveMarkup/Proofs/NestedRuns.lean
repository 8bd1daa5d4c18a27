import LiveMarkup.Proofs.Conduct

/-!
Reactions that make reactions. When a batch of writes queues a reaction together with others that it has made, directly or
through others that it has made, only the first one runs anew: the others are disposed before they get their turn, as they are
younger, and those that are made instead of them run once. All others that are queued run anew, once as well.
-/

namespace LiveMarkup.Reactive
open List Run Reactive.Graph
open Option hiding all_eq_true map_map or_assoc

variable {P : Type → Type} {σ ν : Type}

section Writes

variable {self : Runner P σ ν} {slot : Cell ν}

inductive Put (ν : Type) where
  | set (value : ν)
  | change (next : ν → ν)

def Put.program (cell : CellId) : Put ν → Program P σ ν Unit
  | .set value => Program.perform (.write cell value)
  | .change next => Program.updateCell cell fun old => .done (next old)

def putAll (writes : List (CellId × Put ν)) : Program P σ ν Unit := writes.forM fun write => write.2.program write.1

variable {state next last : State P σ ν} {cells more : List CellId} {cell : CellId} {old : ν} {put : Put ν}

def State.Reads (state : State P σ ν) (cells : List CellId) (e : OwnerId) : Prop :=
  ∃ c ∈ cells, ∃ slot, state.graph.cells.get? c = some slot ∧ e ∈ slot.subscribers

def State.Valued (state : State P σ ν) (c : CellId) : Prop :=
  ∀ slot, state.graph.cells.get? c = some slot → slot.value.isSome

def State.Free (state : State P σ ν) : Prop := ∀ c slot, state.graph.cells.get? c = some slot → slot.inUse = false

theorem ok_then {α β : Type} {first : Run P σ ν α} {after : α → Run P σ ν β} {value : α} {middle : State P σ ν}
    (ran : first state = .ok value middle) : (first >>= after) state = after value middle := by
  show EStateM.bind first after state = _
  rw [EStateM.bind, ran]

structure Wrote (cells : List CellId) (state next : State P σ ν) : Prop where
  frame : ∃ cells queue, next.graph = { state.graph with cells, queue }
  readers : ∀ c, (next.graph.cells.get? c).map Cell.subscribers = (state.graph.cells.get? c).map Cell.subscribers
  valued : ∀ c, state.Valued c → next.Valued c
  free : state.Free → next.Free
  queue : ∀ e, e ∈ next.graph.queue ↔ e ∈ state.graph.queue ∨ state.Reads cells e
  sorted : state.graph.queue.Pairwise (· < ·) → next.graph.queue.Pairwise (· < ·)
  starts : ∀ e, next.starts e = state.starts e

theorem read_iff {cells cells' : Table (Cell ν)} {c : CellId}
    (same : (cells'.get? c).map Cell.subscribers = (cells.get? c).map Cell.subscribers) (e : OwnerId) :
    (∃ slot, cells'.get? c = some slot ∧ e ∈ slot.subscribers) ↔ ∃ slot, cells.get? c = some slot ∧ e ∈ slot.subscribers := by
  have known : ∀ table : Table (Cell ν), (∃ slot, table.get? c = some slot ∧ e ∈ slot.subscribers) ↔
      ∃ subscribers, (table.get? c).map Cell.subscribers = some subscribers ∧ e ∈ subscribers := by
    intro table
    constructor
    · rintro ⟨slot, found, mem⟩
      exact ⟨slot.subscribers, by rw [found, map_some], mem⟩
    · rintro ⟨_, found, mem⟩
      obtain ⟨slot, there, rfl⟩ := map_eq_some_iff.mp found
      exact ⟨slot, there, mem⟩
  rw [known, known, same]

theorem Wrote.reads (wrote : Wrote cells state next) (e : OwnerId) : next.Reads more e ↔ state.Reads more e :=
  exists_congr fun c => and_congr_right fun _ => read_iff (wrote.readers c) e

theorem Wrote.trans (one : Wrote cells state next) (two : Wrote more next last) : Wrote (cells ++ more) state last where
  frame := by
    obtain ⟨_, _, first⟩ := one.frame
    obtain ⟨cells, queue, second⟩ := two.frame
    exact ⟨cells, queue, by rw [second, first]⟩
  readers c := (two.readers c).trans (one.readers c)
  valued c valued := two.valued c (one.valued c valued)
  free free := two.free (one.free free)
  queue e := by
    rw [two.queue, one.queue, one.reads, or_assoc]
    refine or_congr_right ⟨?_, ?_⟩
    · rintro (⟨c, mem, reads⟩ | ⟨c, mem, reads⟩)
      · exact ⟨c, mem_append_left _ mem, reads⟩
      · exact ⟨c, mem_append_right _ mem, reads⟩
    · rintro ⟨c, mem, reads⟩
      exact (mem_append.mp mem).imp (fun mem => ⟨c, mem, reads⟩) fun mem => ⟨c, mem, reads⟩
  sorted order := two.sorted (one.sorted order)
  starts e := (two.starts e).trans (one.starts e)

theorem Wrote.nothing (state : State P σ ν) : Wrote [] state state :=
  ⟨⟨_, _, rfl⟩, fun _ => rfl, fun _ => id, id, by simp [State.Reads], id, fun _ => rfl⟩

theorem Wrote.gone (gone : state.graph.cells.get? cell = none) : Wrote [cell] state state :=
  { Wrote.nothing state with queue := by simp [State.Reads, gone] }

theorem Wrote.enqueued {graph : Graph P ν} {history : List Happening}
    (frame : graph = { state.graph with cells := graph.cells })
    (readers : ∀ c, (graph.cells.get? c).map Cell.subscribers = (state.graph.cells.get? c).map Cell.subscribers)
    (valued : ∀ c slot, graph.cells.get? c = some slot → state.Valued c → slot.value.isSome)
    (free : ∀ c slot, graph.cells.get? c = some slot → state.Free → slot.inUse = false)
    (starts : ∀ e, history.count (.began e) = state.starts e) :
    Wrote [cell] state { state with graph := graph.enqueueSubscribers cell, history } := by
  have reads : ∀ e, state.Reads [cell] e ↔ ∃ slot, graph.cells.get? cell = some slot ∧ e ∈ slot.subscribers := by
    intro e
    rw [read_iff (readers cell) e]
    simp [State.Reads]
  have waiting : graph.queue = state.graph.queue := by rw [frame]
  unfold enqueueSubscribers
  cases found : graph.cells.get? cell with
  | none =>
    exact ⟨⟨graph.cells, state.graph.queue, frame⟩, readers, fun c holds slot found => valued c slot found holds,
      fun holds c slot found => free c slot found holds, by simp [reads, found, waiting], fun order => waiting ▸ order, starts⟩
  | some slot =>
    refine ⟨⟨graph.cells, _, by rw [frame]⟩, readers, fun c holds slot found => valued c slot found holds,
      fun holds c slot found => free c slot found holds, fun e => ?_, fun order => ?_, starts⟩
    · rw [mem_foldl_insertSorted, waiting, reads, found, or_comm]
      simp
    · rw [← waiting] at order
      exact pairwise_foldl_insertSorted order

theorem notify_eq (self : Runner P σ ν) (alive : state.graph.cellAlive cell = true) :
    notify self cell state = (if state.graph.batchDepth = 0 then flush self else Pure.pure ())
      { state with graph := state.graph.enqueueSubscribers cell } := by
  have depth : (state.graph.enqueueSubscribers cell).batchDepth = state.graph.batchDepth := by
    unfold enqueueSubscribers
    split <;> rfl
  rw [notify, run_see, if_pos alive, ← depth]
  rfl

/-- The graph after a cell was given a value that was `old` before. -/
def Put.stored (graph : Graph P ν) (cell : CellId) (old : ν) : Put ν → Graph P ν
  | .set value => graph.store cell value
  | .change next => ((graph.setInUse cell true).store cell (next old)).setInUse cell false

theorem Put.cells_stored (put : Put ν) (graph : Graph P ν) (cell : CellId) (old : ν) : ∃ change : Cell ν → Cell ν,
    (∀ slot, (change slot).subscribers = slot.subscribers ∧ (change slot).value.isSome ∧
      (slot.inUse = false → (change slot).inUse = false)) ∧
      ∀ c, (put.stored graph cell old).cells.get? c =
        (graph.cells.get? c).map fun slot => if c = cell then change slot else slot := by
  cases put with
  | set value =>
    exact ⟨fun slot => { slot with value := some value }, fun _ => ⟨rfl, rfl, id⟩,
      fun c => Table.get?_modify_eq_map graph.cells cell c _⟩
  | change next =>
    refine ⟨fun slot => { slot with value := some (next old), inUse := false }, fun _ => ⟨rfl, rfl, fun _ => rfl⟩, fun c => ?_⟩
    simp only [Put.stored, Graph.store, Graph.setInUse, Table.get?_modify_eq_map, Option.map_map]
    refine congrArg (Option.map · _) (funext fun slot => ?_)
    by_cases same : c = cell <;> simp [same]

theorem Put.run_eq (self : Runner P σ ν) (put : Put ν) (found : state.graph.cells.get? cell = some slot)
    (free : slot.inUse = false) (held : slot.value = some old) : (put.program cell).run self state =
      notify self cell { state with graph := put.stored state.graph cell old, history := .wrote cell :: state.history } := by
  cases put with
  | set value =>
    show (write self cell value >>= fun done => Pure.pure done) state = _
    rw [bind_pure, write, run_see, found]
    simp only [free]
    rfl
  | change next =>
    show (updateCell self cell (fun old => Pure.pure (next old)) >>= fun _ => Pure.pure ()) state = _
    rw [bind_pure, updateCell, run_see, found]
    simp only [free, held]
    rfl

theorem Put.run_gone (self : Runner P σ ν) (put : Put ν) (gone : state.graph.cells.get? cell = none) :
    (put.program cell).run self state = .ok () state := by
  cases put with
  | set value =>
    show (write self cell value >>= fun done => Pure.pure done) state = _
    rw [bind_pure, write, run_see, gone]
    rfl
  | change next =>
    show (updateCell self cell (fun old => Pure.pure (next old)) >>= fun _ => Pure.pure ()) state = _
    rw [bind_pure, updateCell, run_see, gone]
    rfl

/-- The state after a cell was given a value and its subscribers were queued. -/
def Put.queued (put : Put ν) (state : State P σ ν) (cell : CellId) (old : ν) : State P σ ν :=
  { state with
    graph := (put.stored state.graph cell old).enqueueSubscribers cell
    history := .wrote cell :: state.history }

theorem Put.queued_wrote (put : Put ν) (state : State P σ ν) (cell : CellId) (old : ν) :
    Wrote [cell] state (put.queued state cell old) := by
  obtain ⟨_, kept, cells⟩ := put.cells_stored state.graph cell old
  refine .enqueued ?_ (fun c => ?_) (fun c slot found valued => ?_) (fun c slot found free => ?_) fun e =>
    count_cons_of_ne (by simp)
  · cases put <;> rfl
  · rw [cells, Option.map_map]
    refine congrArg (Option.map · _) (funext fun slot => ?_)
    dsimp only [Function.comp]
    split
    · exact (kept slot).1
    · rfl
  · rw [cells] at found
    obtain ⟨old, there, rfl⟩ := Option.map_eq_some_iff.mp found
    split
    · exact (kept old).2.1
    · exact valued old there
  · rw [cells] at found
    obtain ⟨old, there, rfl⟩ := Option.map_eq_some_iff.mp found
    split
    · exact (kept old).2.2 (free c old there)
    · exact free c old there

theorem Put.run_queued (self : Runner P σ ν) (put : Put ν) (found : state.graph.cells.get? cell = some slot)
    (free : slot.inUse = false) (held : slot.value = some old) : (put.program cell).run self state =
      (if state.graph.batchDepth = 0 then flush self else Pure.pure ()) (put.queued state cell old) := by
  have alive : (put.stored state.graph cell old).cellAlive cell = true := by
    obtain ⟨_, _, cells⟩ := put.cells_stored state.graph cell old
    simp [cellAlive, Table.contains, cells, found]
  have depth : (put.stored state.graph cell old).batchDepth = state.graph.batchDepth := by cases put <;> rfl
  rw [Put.run_eq self put found free held, notify_eq self alive, depth]
  rfl

theorem Put.wrote (put : Put ν) (deep : state.graph.batchDepth ≠ 0) (free : state.Free) (valued : state.Valued cell) :
    ∃ next, (∀ self, (put.program cell).run self state = .ok () next) ∧ Wrote [cell] state next := by
  cases found : state.graph.cells.get? cell with
  | none => exact ⟨state, fun self => Put.run_gone self put found, .gone found⟩
  | some slot =>
    obtain ⟨old, held⟩ := isSome_iff_exists.mp (valued slot found)
    refine ⟨put.queued state cell old, fun self => ?_, put.queued_wrote state cell old⟩
    rw [Put.run_queued self put found (free cell slot found) held, if_neg deep]
    rfl

theorem putAll_wrote (writes : List (CellId × Put ν)) (deep : state.graph.batchDepth ≠ 0) (free : state.Free)
    (valued : ∀ write ∈ writes, state.Valued write.1) :
    ∃ next, (∀ self, (putAll writes).run self state = .ok () next) ∧ Wrote (writes.map Prod.fst) state next := by
  induction writes generalizing state with
  | nil => exact ⟨state, fun _ => rfl, .nothing state⟩
  | cons write writes ih =>
    obtain ⟨middle, here, one⟩ := write.2.wrote deep free (valued write mem_cons_self)
    have deep' : middle.graph.batchDepth ≠ 0 := by
      obtain ⟨_, _, same⟩ := one.frame
      rw [same]
      exact deep
    obtain ⟨next, there, rest⟩ := ih deep' (one.free free) fun other mem =>
      one.valued _ (valued other (mem_cons_of_mem _ mem))
    exact ⟨next, fun self => (Program.run_then (here self) fun _ => putAll writes).trans (there self), one.trans rest⟩

theorem flush_eq (self : Runner P σ ν) (still : state.graph.flushing = false) : flush self state =
    (self .drain >>= fun _ => alterGraph fun graph => { graph with flushing := false })
      { state with graph := { state.graph with flushing := true } } := by
  rw [flush, run_see, if_neg (by simp [still])]
  rfl

structure Begun (cells : List CellId) (state begun : State P σ ν) : Prop where
  frame : ∃ cells queue, begun.graph = { state.graph with cells, queue, flushing := true }
  readers : ∀ c, (begun.graph.cells.get? c).map Cell.subscribers = (state.graph.cells.get? c).map Cell.subscribers
  queue : ∀ e, e ∈ begun.graph.queue ↔ state.Reads cells e
  sorted : begun.graph.queue.Pairwise (· < ·)
  starts : ∀ e, begun.starts e = state.starts e

end Writes

section Batches

variable [BEq ν] {meaning : Interpretation P σ ν} {state next : State P σ ν}

def State.deeper (state : State P σ ν) : State P σ ν :=
  { state with graph := { state.graph with batchDepth := state.graph.batchDepth + 1 } }

/-- The state in which reactions begin to get their turns at the end of a batch. -/
def State.flushed (state : State P σ ν) : State P σ ν :=
  { state with graph := { state.graph with batchDepth := state.graph.batchDepth - 1, flushing := true } }

/-- Every reaction that gets its turn at the end of a batch of writes comes to its end. -/
def ReturningAfter (meaning : Interpretation P σ ν) (writes : List (CellId × Put ν)) (state : State P σ ν) : Prop :=
  ∀ fuel written, (putAll writes).execute meaning fuel state.deeper = .ok () written → Returning meaning written.flushed

theorem batch_begins {writes : List (CellId × Put ν)} (idle : state.graph.queue = [])
    (still : state.graph.flushing = false) (flat : state.graph.batchDepth = 0) (free : state.Free)
    (valued : ∀ write ∈ writes, state.Valued write.1) (returning : ReturningAfter meaning writes state) :
    ∃ begun, Begun (writes.map Prod.fst) state begun ∧ Returning meaning begun ∧
      ∀ fuel last, Job.run meaning fuel .drain begun = .ok () last →
        (Program.batch (putAll writes)).execute meaning fuel state =
          .ok () { last with graph := { last.graph with flushing := false } } := by
  have deep : state.deeper.graph.batchDepth ≠ 0 := Nat.succ_ne_zero _
  obtain ⟨written, runs, wrote⟩ := putAll_wrote writes deep free valued
  obtain ⟨cells, queue, same⟩ := wrote.frame
  have depth : written.graph.batchDepth - 1 = 0 := by
    rw [same]
    exact flat
  have quiet : written.graph.flushing = false := by
    rw [same]
    exact still
  refine ⟨written.flushed, ⟨⟨cells, queue, ?_⟩, wrote.readers, fun e => ?_, wrote.sorted (by simp [State.deeper, idle]),
    wrote.starts⟩, returning 0 written (runs _), fun fuel last drained => ?_⟩
  · simp only [State.flushed, same, State.deeper, Nat.add_sub_cancel]
  · refine (wrote.queue e).trans ?_
    simp [State.deeper, idle, State.Reads]
  · show (inBatch (Job.run meaning fuel) ((putAll writes).run (Job.run meaning fuel)) >>= fun done => Pure.pure done) state = _
    let closed : State P σ ν := { written with graph := { written.graph with batchDepth := written.graph.batchDepth - 1 } }
    have entered : (alterGraph fun graph => { graph with batchDepth := graph.batchDepth + 1 } : Run P σ ν Unit) state =
        .ok () state.deeper := rfl
    have left : (alterGraph fun graph => { graph with batchDepth := graph.batchDepth - 1 } : Run P σ ν Unit) written =
        .ok () closed := rfl
    have flushed : flush (Job.run meaning fuel) closed = .ok () { last with graph := { last.graph with flushing := false } } := by
      rw [flush_eq _ (show closed.graph.flushing = false from quiet)]
      exact ok_then drained
    rw [bind_pure, inBatch, ok_then entered, ok_then (runs _), ok_then left, run_see,
      if_pos (show closed.graph.batchDepth = 0 from depth)]
    exact ok_then flushed

end Batches

section Lists

variable {graph : Graph P ν} {top middle e : OwnerId}

def Graph.Below (graph : Graph P ν) (top e : OwnerId) : Prop :=
  ∃ p q, graph.Under top p ∧ graph.owners.get? p = some q ∧ e ∈ q.children

theorem Graph.Below.under (below : graph.Below top e) : graph.Under top e := by
  obtain ⟨_, _, above, found, mem⟩ := below
  exact .listed above found mem

theorem Graph.Under.beneath (under : graph.Under top e) (apart : e ≠ top) : graph.Below top e := by
  cases under with
  | top => exact absurd rfl apart
  | listed above found mem => exact ⟨_, _, above, found, mem⟩

theorem Graph.Under.congr {next : Graph P ν} (under : graph.Under top e) (owners : next.owners = graph.owners) :
    next.Under top e := by
  induction under with
  | top alive => exact .top (by simpa only [ownerAlive, owners] using alive)
  | listed _ found mem ih => exact .listed ih (owners ▸ found) mem

theorem Graph.Below.trans (below : graph.Below top middle) (under : graph.Under middle e) : graph.Below top e := by
  cases under with
  | top => exact below
  | listed above found mem => exact ⟨_, _, below.under.trans above, found, mem⟩

end Lists

section Turns

variable {plays : {ι : Type} → P ι → Prop} {begun state next : State P σ ν} {x e : OwnerId} {rest : List OwnerId}
variable {a : OwnerId}

/-- Tasks that write nothing, compute nothing and dispose nothing. -/
def Cast.quiet (plays : {ι : Type} → P ι → Prop) : Cast P where
  plays _ := plays
  written := ∅
  disposes := False

def State.waiting (begun : State P σ ν) : Stage P σ ν where
  base := begun
  special := none
  spared := ∅
  pending := ∅
  queue := []
  owner := begun.graph.owner
  observer := begun.graph.observer
  loud := True
  deaf := False

/-- A reaction has had its turn. It was the first of all that wait above it, and whoever was below it is gone. -/
structure Ran (begun state : State P σ ν) (x : OwnerId) : Prop where
  once : state.starts x = begun.starts x + 1
  out : x ∉ state.graph.queue
  below : ∀ e, begun.graph.Below x e → state.graph.ownerAlive e = false
  first : ∀ a ∈ begun.graph.queue, begun.graph.Under a x → a = x

/-- What holds after each turn. Whoever has left the queue has had its turn or is gone without it, and whoever is gone was
below a reaction that has had its turn. -/
structure Progress (cast : Cast P) (begun state : State P σ ν) : Prop where
  acting : begun.waiting.Acting cast state
  queue : state.graph.queue.Sublist begun.graph.queue
  orderly : begun.graph.Orderly state.graph
  ends : Ends True Set.univ begun state
  reactions : ∀ e ∈ begun.graph.queue, state.graph.IsReaction e ∧ e < begun.graph.nextId
  still : ∀ e < begun.graph.nextId, e ∈ state.graph.queue ∨ e ∉ begun.graph.queue → state.starts e = begun.starts e
  out : ∀ e ∈ begun.graph.queue, e ∉ state.graph.queue →
    Ran begun state e ∨ state.starts e = begun.starts e ∧ state.graph.ownerAlive e = false
  there : ∀ e, begun.graph.ownerAlive e = true →
    state.graph.ownerAlive e = true ∨ ∃ a ∈ begun.graph.queue, Ran begun state a ∧ begun.graph.Below a e

def staying (begun state : State P σ ν) (x : OwnerId) : Set OwnerId :=
  {e | state.graph.ownerAlive e = true ∧ e < begun.graph.nextId ∧ ¬ begun.graph.Below x e}

def State.turn (begun state : State P σ ν) (x : OwnerId) (rest : List OwnerId) : Stage P σ ν :=
  { begun.waiting with
    spared := staying begun state x
    queue := rest
    loud := False }

variable (progress : Progress (Cast.quiet plays) begun state) (counted : begun.graph.Counted) {q : Owner P ν}
  {p : OwnerId}
include progress

theorem Progress.was (old : e < begun.graph.nextId) (alive : state.graph.ownerAlive e = true) :
    begun.graph.ownerAlive e = true := by
  by_contra dead
  rw [(progress.ends.gone e old (Bool.eq_false_iff.mpr dead)).1] at alive
  cases alive

include counted

theorem Progress.closed (found : state.graph.owners.get? p = some q)
    (above : begun.graph.Under x p ∨ begun.graph.nextId ≤ p) (mem : e ∈ q.children) : e ∉ staying begun state x := by
  rintro ⟨_, old, free⟩
  obtain ⟨q', there, mem⟩ := progress.orderly.listed p q found e mem old
  rcases above with above | new
  · exact free ⟨p, q', above, there, mem⟩
  · exact absurd (counted.owners p q' there) (not_lt.mpr new)

theorem Progress.turn (waiting : state.graph.queue = x :: rest) :
    (begun.turn state x rest).Turn (Cast.quiet plays) x (state.withQueue rest) := by
  have old : x < begun.graph.nextId := (progress.reactions x (progress.queue.subset (by simp [waiting]))).2
  have acting := (progress.acting.pop waiting False).sparing (staying begun state x) False.elim (fun e held => held.1)
    fun p q found free e mem => by
      refine progress.closed counted found ?_ mem
      by_contra apart
      obtain ⟨above, old⟩ := not_or.mp apart
      exact free ⟨isSome_iff_exists.mpr ⟨q, found⟩, Nat.lt_of_not_le old, fun below => above below.under⟩
  refine ⟨acting.awaiting x, fun o found e mem => ?_, fun _ new => absurd old (not_lt.mpr new)⟩
  have alive := progress.was old (isSome_iff_exists.mpr ⟨o, found⟩)
  exact progress.closed counted found (.inl (.top alive)) mem

omit counted progress in
theorem Ends.popped (counted : state.graph.Counted) (rest : List OwnerId) :
    Ends True Set.univ state (state.withQueue rest) :=
  { (.refl counted : Ends True Set.univ state state) with
    counted := ⟨counted.owners, counted.children⟩
    emptied := fun quiet => absurd trivial quiet }

structure Turned (cast : Cast P) (begun state next : State P σ ν) (x : OwnerId) (rest : List OwnerId) : Prop where
  acting : (begun.turn state x rest).Acting cast next
  grows : state.graph.Grows next.graph
  ends : Ends True Set.univ state next
  orderly : begun.graph.Orderly next.graph
  others : ∀ e < state.graph.nextId, e ≠ x → next.starts e = state.starts e
  begins : ∀ o, state.graph.owners.get? x = some o →
    next.starts x = state.starts x + 1 ∧ ∀ child ∈ o.children, next.graph.ownerAlive child = false
  gone : state.graph.ownerAlive x = false → next.starts x = state.starts x

variable [BEq ν] {meaning : Interpretation P σ ν} {fuel : Nat}

theorem Progress.turned (fits : (Cast.quiet plays).Fits meaning) (waiting : state.graph.queue = x :: rest)
    (ran : Job.run meaning fuel (.rerun x) (state.withQueue rest) = .ok () next) :
    Turned (Cast.quiet plays) begun state next x rest := by
  have popped := Ends.popped progress.orderly.counted rest
  have ends : Ends False {x} (state.withQueue rest) next := ((Going.run meaning fuel).rerun x).ends popped.counted ran
  have held : (state.withQueue rest).Held := .inl progress.acting.flushing
  obtain ⟨acting, follows⟩ := (PlaysAll.run fits fuel).rerun (begun.turn state x rest) x
    (by simp [State.turn, State.waiting]) _ _ _ (progress.turn counted waiting) ran
  have before : begun.graph.Orderly (state.withQueue rest).graph := progress.orderly.fewer (.same rfl (le_rfl))
  have loud : Ends True {x} (state.withQueue rest) next :=
    (show Went False {x} (state.withQueue rest) (.ok () next) from ends).louder
  have reaction := (progress.reactions x (progress.queue.subset (by simp [waiting]))).1
  exact {
    acting
    grows := ⟨follows.grows.nextId_le, follows.grows.bodies⟩
    ends := popped.trans progress.orderly.counted loud fun _ _ => .inl trivial
    orderly := by
      have kept : Kept begun.graph.Orderly (state.withQueue rest).graph.observer Set.univ (state.withQueue rest) :=
        ⟨⟨rfl, fun _ _ _ _ => trivial⟩, before⟩
      exact (LastsAll.run (.orderly begun.graph) meaning fuel (.rerun x) _ _ _ _ _ kept ran).1.2
    others := fun e old apart => ends.held held e old apart
    begins := fun o found => by
      cases fuel with
      | zero => cases ran
      | succ fuel =>
        have ran : rerun (Job.run meaning fuel) x (state.withQueue rest) = .ok () next := ran
        have there : (state.withQueue rest).graph.owners.get? x = some o := found
        have begins := (Going.run meaning fuel).begins popped.counted held there (reaction.2 o found) ran
        exact begins
    gone := fun dead => (ends.gone x reaction.1 dead).2 }

omit counted progress [BEq ν] in
theorem Turned.shrinks {cast : Cast P} (turned : Turned cast begun state next x rest) : next.graph.queue.Sublist rest :=
  (turned.acting.shrinks not_false).resolve_right fun ⟨_, same, _⟩ => by cases same

omit [BEq ν] in
theorem Ran.stays (ran : Ran begun state e) (turned : Turned (Cast.quiet plays) begun state next x rest)
    (waiting : state.graph.queue = x :: rest) (mem : e ∈ begun.graph.queue) : Ran begun next e where
  once := by
    have old : e < state.graph.nextId := (progress.reactions e mem).1.1
    exact (turned.others e old fun same => ran.out (by simp [waiting, same])).trans ran.once
  out still := ran.out (waiting ▸ mem_cons_of_mem x (turned.shrinks.subset still))
  below y below := by
    obtain ⟨p, q, _, found, child⟩ := id below
    exact (turned.ends.gone y ((counted.children p q found y child).trans_le progress.ends.nextId_le) (ran.below y below)).1
  first := ran.first

omit counted [BEq ν] in
theorem Progress.first (order : begun.graph.Orderly begun.graph) (sorted : begun.graph.queue.Pairwise (· < ·))
    (waiting : state.graph.queue = x :: rest) (alive : state.graph.ownerAlive x = true) (queued : a ∈ begun.graph.queue)
    (above : begun.graph.Under a x) : a = x := by
  by_contra apart
  have less : a < x := Nat.lt_of_le_of_ne (above.not_older order) apart
  have left : a ∉ state.graph.queue := by
    have sorted := sorted.sublist progress.queue
    rw [waiting] at sorted ⊢
    intro mem
    rcases mem_cons.mp mem with same | later
    · exact apart same
    · exact Nat.lt_asymm less ((pairwise_cons.mp sorted).1 a later)
  have dead : ∀ {b}, Ran begun state b → begun.graph.Below b x → False := fun ran below => by
    rw [ran.below x below] at alive
    cases alive
  rcases progress.out a queued left with ran | ⟨_, gone⟩
  · exact dead ran (above.beneath fun same => apart same.symm)
  · rcases progress.there a above.alive with present | ⟨b, _, ran, below⟩
    · rw [gone] at present
      cases present
    · exact dead ran (below.trans above)

omit [BEq ν] in
theorem Turned.cleared (turned : Turned (Cast.quiet plays) begun state next x rest) (ends : Ends True Set.univ begun next) (under : begun.graph.Under x p) (found : begun.graph.owners.get? p = some q)
    (mem : e ∈ q.children) : next.graph.ownerAlive e = false := by
  induction under generalizing q e with
  | top =>
    rcases progress.ends.lists x q found e mem with dead | ⟨q', there, mem⟩
    · exact (turned.ends.gone e ((counted.children x q found e mem).trans_le progress.ends.nextId_le) dead).1
    · exact (turned.begins q' there).2 e mem
  | listed _ above listed ih =>
    rcases ends.lists _ q found e mem with dead | ⟨q', there, _⟩
    · exact dead
    · have present := ih above listed
      simp [ownerAlive, Table.contains, there] at present

theorem Progress.step (fits : (Cast.quiet plays).Fits meaning) (order : begun.graph.Orderly begun.graph)
    (sorted : begun.graph.queue.Pairwise (· < ·)) (round : Round meaning state next) :
    Progress (Cast.quiet plays) begun next := by
  obtain ⟨x, rest, _, waiting, ran⟩ := round
  have turned := progress.turned counted fits waiting ran
  have queued : x ∈ begun.graph.queue := progress.queue.subset (by simp [waiting])
  have ends : Ends True Set.univ begun next := progress.ends.trans counted turned.ends fun _ _ => .inl trivial
  have once : x ∉ rest := fun later => by
    have sorted := sorted.sublist progress.queue
    rw [waiting] at sorted
    exact lt_irrefl x ((pairwise_cons.mp sorted).1 x later)
  have old : ∀ {e}, e < begun.graph.nextId → e < state.graph.nextId := fun below => below.trans_le progress.ends.nextId_le
  -- the reaction that had its turn, if it was still there
  have itself : state.graph.ownerAlive x = true → Ran begun next x := fun alive => by
    obtain ⟨o, found⟩ := isSome_iff_exists.mp alive
    refine ⟨?_, fun mem => once (turned.shrinks.subset mem), ?_,
      fun a mem above => progress.first order sorted waiting alive mem above⟩
    · rw [(turned.begins o found).1, progress.still x (progress.reactions x queued).2 (.inl (by simp [waiting]))]
    · rintro _ ⟨_, _, above, found, mem⟩
      exact turned.cleared progress counted ends above found mem
  exact {
    acting := { turned.acting with
      disposes := False.elim
      stays := fun _ => False.elim
      apart := fun _ _ _ _ _ _ => id
      kept := fun _ mem => absurd mem not_mem_nil
      shrinks := fun quiet => absurd trivial quiet
      unheard := False.elim }
    queue := turned.shrinks.trans ((sublist_cons_self x rest).trans (waiting ▸ progress.queue))
    orderly := turned.orderly
    ends
    reactions := fun e mem => ⟨(progress.reactions e mem).1.grow turned.grows, (progress.reactions e mem).2⟩
    still := fun e below waits => by
      have apart : e ≠ x := by
        rintro rfl
        exact waits.elim (fun mem => once (turned.shrinks.subset mem)) fun away => away queued
      rw [turned.others e (old below) apart]
      refine progress.still e below (waits.imp (fun mem => ?_) id)
      exact waiting ▸ mem_cons_of_mem x (turned.shrinks.subset mem)
    out := fun e mem left => by
      have below := (progress.reactions e mem).2
      by_cases same : e = x
      · subst same
        cases alive : state.graph.ownerAlive e with
        | true => exact .inl (itself alive)
        | false =>
          refine .inr ⟨(turned.gone alive).trans (progress.still e below (.inl (by simp [waiting]))), ?_⟩
          exact (turned.ends.gone e (old below) alive).1
      · by_cases waits : e ∈ state.graph.queue
        · refine .inr ⟨(turned.others e (old below) same).trans (progress.still e below (.inl waits)), ?_⟩
          rw [waiting] at waits
          have later := (mem_cons.mp waits).resolve_left same
          exact Bool.eq_false_iff.mpr fun alive => left (turned.acting.kept e later below alive)
        · refine (progress.out e mem waits).imp (fun ran => ran.stays progress counted turned waiting mem) ?_
          exact fun ⟨starts, dead⟩ => ⟨(turned.others e (old below) same).trans starts, (turned.ends.gone e (old below) dead).1⟩
    there := fun e alive => by
      obtain ⟨o, found⟩ := isSome_iff_exists.mp alive
      have below := counted.owners e o found
      rcases progress.there e alive with present | ⟨a, mem, ran, under⟩
      · by_cases under : begun.graph.Below x e
        · refine .inr ⟨x, queued, itself ?_, under⟩
          by_contra dead
          rw [progress.ends.gone_under (Bool.eq_false_iff.mpr dead) under.under] at present
          cases present
        · exact .inl (turned.acting.stays e ⟨present, below, under⟩)
      · exact .inr ⟨a, mem, ran.stays progress counted turned waiting mem, under⟩ }

omit counted [BEq ν] in
theorem Progress.topmost (empty : state.graph.queue = []) (alive : begun.graph.ownerAlive a = true)
    (queued : a ∈ begun.graph.queue) : ∃ top ∈ begun.graph.queue, begun.graph.Under top a ∧ Ran begun state top := by
  rcases progress.out a queued (by simp [empty]) with ran | ⟨_, dead⟩
  · exact ⟨a, queued, .top alive, ran⟩
  · rcases progress.there a alive with present | ⟨top, mem, ran, below⟩
    · rw [dead] at present
      cases present
    · exact ⟨top, mem, below.under, ran⟩

omit counted [BEq ν] in
theorem Progress.nested (empty : state.graph.queue = []) (queued : a ∈ begun.graph.queue) (under : begun.graph.Under a e)
    (apart : e ≠ a) (waits : e ∈ begun.graph.queue) : state.starts e = begun.starts e ∧ state.graph.ownerAlive e = false := by
  refine (progress.out e waits (by simp [empty])).resolve_left fun ran => ?_
  exact apart (ran.first a queued under).symm

end Turns

section Flushes

variable [BEq ν] {meaning : Interpretation P σ ν} {plays : {ι : Type} → P ι → Prop} {state begun next : State P σ ν}
  {cells : List CellId} {e : OwnerId}

def State.Roused (state : State P σ ν) (cells : List CellId) (e : OwnerId) : Prop :=
  state.graph.ownerAlive e = true ∧ state.Reads cells e

theorem Begun.orderly (begins : Begun cells state begun) (reached : Reached meaning state) :
    begun.graph.Orderly begun.graph := by
  obtain ⟨_, _, same⟩ := begins.frame
  have fewer : state.graph.Fewer begun.graph := .same (by rw [same]) (by rw [same])
  exact (reached.orderly.fewer fewer).rebase

omit [BEq ν] in
theorem Begun.acting {cast : Cast P} {special : Option OwnerId} (begins : Begun cells state begun) (counted : begun.graph.Counted)
    (covers : ∀ e o, state.graph.owners.get? e = some o → cast.Covers special e o)
    (old : ∀ e, special = some e → e < begun.graph.nextId) : { begun.waiting with special }.Acting cast begun := by
  obtain ⟨_, _, same⟩ := begins.frame
  exact {
    flushing := by rw [same]
    owner_eq := rfl
    observer_eq := rfl
    counted
    since := le_rfl
    special_old := old
    disposes := fun _ => rfl
    stays := fun _ => False.elim
    apart := fun _ _ _ _ _ _ => id
    casts := fun e o found => covers e o (by rw [same] at found; exact found)
    unborn := fun _ _ => rfl
    fresh := fun e o found new => absurd (counted.owners e o found) (not_lt.mpr new)
    sorted := begins.sorted
    kept := fun _ mem => absurd mem not_mem_nil
    shrinks := fun quiet => absurd trivial quiet
    unheard := False.elim }

theorem Begun.reaction (begins : Begun cells state begun) (reached : Reached meaning state) (mem : e ∈ begun.graph.queue) :
    begun.graph.IsReaction e ∧ e < begun.graph.nextId := by
  obtain ⟨_, _, same⟩ := begins.frame
  obtain ⟨c, _, slot, found, reads⟩ := (begins.queue e).mp mem
  have reaction : begun.graph.IsReaction e := by
    rw [same]
    exact reached.calm.1.1.subscribed c slot found e reads
  exact ⟨reaction, reaction.1⟩

theorem Begun.progress (begins : Begun cells state begun) (reached : Reached meaning state)
    (covers : ∀ e o, state.graph.owners.get? e = some o → (Cast.quiet plays).Covers none e o) :
    Progress (Cast.quiet plays) begun begun := by
  have order := begins.orderly reached
  exact {
    acting := begins.acting order.counted covers fun _ special => by cases special
    queue := Sublist.refl _
    orderly := order
    ends := .refl order.counted
    reactions := fun e mem => begins.reaction reached mem
    still := fun _ _ _ => rfl
    out := fun e mem left => absurd mem left
    there := fun _ alive => .inl alive }

/-- The states after some more calls, each of which has come to its end or to a fault. -/
inductive Onward (meaning : Interpretation P σ ν) (state : State P σ ν) : State P σ ν → Prop where
  | here : Onward @meaning state state
  | call {α : Type} {later : State P σ ν} (before : Onward @meaning state later) (program : Program P σ ν α) (fuel : Nat) :
      Onward @meaning state (lastState (program.execute meaning fuel later))

theorem Stopped.onward {last : State P σ ν} (stopped : Stopped e state) (onward : Onward meaning state last) :
    Stopped e last ∧ last.starts e = state.starts e := by
  induction onward with
  | here => exact ⟨stopped, rfl⟩
  | call _ program fuel ih =>
    obtain ⟨stopped, same⟩ := ih
    obtain ⟨stopped, again⟩ := stopped.passes (Goes.execute fuel program _ stopped.counted).passes
    exact ⟨stopped, again.trans same⟩

/-- No stale nested run. A batch of writes rouses whoever has read what is written, and comes to its end if the
reactions do that get a turn. Of roused reactions below each other the topmost runs anew, and the others are gone and
never run again. Whoever is there after the batch and is new or was roused ran once, and the others that are there did
not run. -/
theorem no_stale_nested_run {writes : List (CellId × Put ν)} (fits : (Cast.quiet plays).Fits meaning)
    (reached : Reached meaning state)
    (covers : ∀ e o, state.graph.owners.get? e = some o → (Cast.quiet plays).Covers none e o)
    (valued : ∀ write ∈ writes, state.Valued write.1) (returning : ReturningAfter meaning writes state) :
    ∃ fuel next, (∀ more, fuel ≤ more → (Program.batch (putAll writes)).execute meaning more state = .ok () next) ∧
      (∀ a e, state.Roused (writes.map Prod.fst) a → state.Roused (writes.map Prod.fst) e → state.graph.Under a e → a ≠ e →
        (∃ top, state.Roused (writes.map Prod.fst) top ∧ state.graph.Under top a ∧
          (∀ b, state.Roused (writes.map Prod.fst) b → state.graph.Under b top → b = top) ∧
          next.starts top = state.starts top + 1) ∧
        ∀ last, Onward meaning next last → Stopped e last ∧ last.starts e = state.starts e) ∧
      ∀ e o, next.graph.owners.get? e = some o → o.body.isSome →
        (state.graph.nextId ≤ e ∨ state.Roused (writes.map Prod.fst) e → next.starts e = state.starts e + 1) ∧
        (e < state.graph.nextId → ¬ state.Roused (writes.map Prod.fst) e → next.starts e = state.starts e) := by
  obtain ⟨⟨_, idle⟩, still, flat⟩ := reached.calm
  have free : state.Free := fun c slot found => by
    by_contra busy
    exact reached.kept.1.used c slot found (Bool.eq_true_of_not_eq_false busy)
  obtain ⟨begun, begins, returns, ends⟩ := batch_begins (idle still flat) still flat free valued returning
  have order := begins.orderly reached
  -- each turn leaves fewer that wait
  have falls : ∀ one two, Progress (Cast.quiet plays) begun one → Round meaning one two →
      Progress (Cast.quiet plays) begun two ∧ two.graph.queue.length < one.graph.queue.length := by
    intro one two progress round
    refine ⟨progress.step order.counted fits order begins.sorted round, ?_⟩
    obtain ⟨_, rest, _, waiting, ran⟩ := round
    rw [waiting]
    exact Nat.lt_succ_of_le (progress.turned order.counted fits waiting ran).shrinks.length_le
  obtain ⟨fuel, last, drained, progress, empty⟩ := returns.drains (fun state => state.graph.queue.length) Nat.lt_wfRel.wf falls
    (begins.progress reached covers)
  refine ⟨fuel, { last with graph := { last.graph with flushing := false } }, fun more enough =>
    ends more last ((ExceedsAll.run enough _).same drained), ?_⟩
  obtain ⟨_, _, same⟩ := begins.frame
  have owners : begun.graph.owners = state.graph.owners := by rw [same]
  have nextId : begun.graph.nextId = state.graph.nextId := by rw [same]
  have alive : ∀ e, begun.graph.ownerAlive e = state.graph.ownerAlive e := fun e => by simp only [Graph.ownerAlive, owners]
  have under : ∀ {a e}, begun.graph.Under a e ↔ state.graph.Under a e :=
    ⟨fun above => above.congr owners.symm, fun above => above.congr owners⟩
  constructor
  · rintro a e ⟨above, reads⟩ ⟨_, reads'⟩ nested apart
    constructor
    · obtain ⟨top, queued, highest, ran⟩ := progress.topmost empty ((alive a).trans above) ((begins.queue a).mpr reads)
      refine ⟨top, ⟨(alive top).symm.trans highest.alive, (begins.queue top).mp queued⟩, under.mp highest, ?_, ?_⟩
      · exact fun b roused higher => ran.first b ((begins.queue b).mpr roused.2) (under.mpr higher)
      · exact ran.once.trans (congrArg Nat.succ (begins.starts top))
    · obtain ⟨starts, gone⟩ := progress.nested empty ((begins.queue a).mpr reads) (under.mpr nested) (Ne.symm apart)
        ((begins.queue e).mpr reads')
      have stopped : Stopped e { last with graph := { last.graph with flushing := false } } :=
        ⟨⟨progress.acting.counted.owners, progress.acting.counted.children⟩,
          (progress.reactions e ((begins.queue e).mpr reads')).1.1, gone⟩
      intro final onward
      obtain ⟨stopped, same⟩ := stopped.onward onward
      exact ⟨stopped, same.trans (starts.trans (begins.starts e))⟩
  · intro e o found acts
    have present : last.graph.ownerAlive e = true := isSome_iff_exists.mpr ⟨o, found⟩
    refine ⟨?_, fun old free => ?_⟩
    · rintro (new | ⟨_, reads⟩)
      · exact (progress.acting.fresh e o found (nextId ▸ new) acts id).trans (congrArg Nat.succ (begins.starts e))
      · rcases progress.out e ((begins.queue e).mpr reads) (by simp [empty]) with ran | ⟨_, dead⟩
        · exact ran.once.trans (congrArg Nat.succ (begins.starts e))
        · rw [dead] at present
          cases present
    · have old : e < begun.graph.nextId := nextId ▸ old
      refine (progress.still e old (.inr fun queued => free ⟨?_, (begins.queue e).mp queued⟩)).trans (begins.starts e)
      exact (alive e).symm.trans (progress.was old present)

end Flushes

/-- Reads a cell and makes reactions inside each other, as deep as is said. -/
inductive Nesting : Type → Type where
  | nest (cell : CellId) (depth : Nat) : Nesting Unit

def Nesting.meaning : Interpretation Nesting Unit Nat
  | _, .nest cell depth => do
    let _ ← Program.get true cell
    match depth with
    | 0 => return
    | depth + 1 =>
      let _ ← Program.perform (.newEffect (.nest cell depth))

def makeNested (depth : Nat) : Program Nesting Unit Nat Unit := do
  let cell ← Program.perform (.newSignal 1)
  let other ← Program.perform (.newSignal 2)
  let _ ← Program.perform (.newEffect (.nest cell depth))
  let _ ← Program.perform (.newEffect (.nest other 0))

theorem Nesting.fits : (Cast.quiet fun {ι} (_ : Nesting ι) => True).Fits Nesting.meaning := by
  intro part ι task _
  cases task with
  | nest cell depth =>
    refine (Program.suits_get true cell).bind fun _ => ?_
    cases depth with
    | zero => trivial
    | succ depth =>
      have makes : (Command.newEffect (.nest cell depth) : Command Nesting Unit Nat OwnerId).Suits
          (Cast.quiet fun {ι} (_ : Nesting ι) => True) part := trivial
      exact (Program.suits_perform makes).bind fun _ => trivial

/-- Those who have read the first cell are `readers`; an owner among them has made another. -/
def State.nested (state : State Nesting Unit Nat) (readers : List OwnerId) (maker made : OwnerId) : Bool :=
  (state.graph.owners.entries.all fun entry => match entry.2.body with
    | some (.computed ..) => false
    | _ => true) &&
  decide ((state.graph.owners.get? maker).map Owner.children = some [made]) && readers.all state.graph.ownerAlive &&
  decide ((state.graph.cells.get? 1).map (fun slot => (slot.value, slot.subscribers)) = some (some 1, readers))

theorem covers_of_nested {state : State Nesting Unit Nat} {readers : List OwnerId} {maker made : OwnerId}
    (nested : state.nested readers maker made = true) :
    (∀ e o, state.graph.owners.get? e = some o → (Cast.quiet fun {ι} (_ : Nesting ι) => True).Covers none e o) ∧
      state.graph.Under maker made ∧ (∀ e, state.Roused [1] e ↔ e ∈ readers) ∧ state.Valued 1 := by
  simp only [State.nested, Bool.and_eq_true, all_eq_true, decide_eq_true_eq] at nested
  obtain ⟨⟨⟨plain, children⟩, alive⟩, reads⟩ := nested
  obtain ⟨slot, there, holds⟩ := map_eq_some_iff.mp reads
  obtain ⟨value, rfl⟩ := Prod.mk.inj holds
  refine ⟨fun e o found => ⟨fun body what => ?_, fun _ _ => .inl trivial⟩, ?_, fun e => ?_, ?_⟩
  · have plain := plain _ (Table.mem_of_get? found)
    rw [what] at plain
    cases body with
    | effect task => exact ⟨task, rfl, trivial⟩
    | computed => cases plain
  · obtain ⟨o, found, listed⟩ := map_eq_some_iff.mp children
    exact .listed (.top (isSome_iff_exists.mpr ⟨o, found⟩)) found (by simp [listed])
  · simpa [State.Roused, State.Reads, there] using alive e
  · simp [State.Valued, there, value]

/-- Of two reactions inside each other the outer one runs anew, and makes another inner one. -/
theorem no_stale_nested_run_made : ∃ state fuel next, Reached Nesting.meaning state ∧ state.graph.Under 3 4 ∧
    (Program.batch (putAll [(1, .set 5)])).execute Nesting.meaning fuel state = .ok () next ∧
    next.starts 3 = state.starts 3 + 1 ∧ Stopped 4 next ∧ next.starts 4 = state.starts 4 ∧
    next.starts 5 = state.starts 5 ∧ next.starts 6 = state.starts 6 + 1 := by
  have ran : (match (makeNested 1).execute Nesting.meaning 9 { outside := () } with
      | .ok _ state => state.nested [3, 4] 3 4 && decide (state.graph.nextId = 6) &&
        match (putAll [(1, .set 5)]).execute Nesting.meaning 9 state.deeper with
        | .ok _ written => match Job.run Nesting.meaning 9 .drain written.flushed with
          | .ok _ _ => match (Program.batch (putAll [(1, .set 5)])).execute Nesting.meaning 9 state with
            | .ok _ next => ((next.graph.owners.get? 5).bind Owner.body).isSome &&
              ((next.graph.owners.get? 6).bind Owner.body).isSome
            | .error _ _ => false
          | .error _ _ => false
        | .error _ _ => false
      | .error _ _ => false) = true := by decide +kernel
  split at ran
  · rename_i state returns
    simp only [Bool.and_eq_true, decide_eq_true_eq] at ran
    obtain ⟨⟨nested, count⟩, ran⟩ := ran
    split at ran
    · rename_i written puts
      split at ran
      · rename_i drained
        split at ran
        · rename_i next ends
          have reached : Reached Nesting.meaning state := .call (.start ()) (makeNested 1) 9 returns
          obtain ⟨covers, under, roused, valued⟩ := covers_of_nested nested
          have returning : ReturningAfter Nesting.meaning [(1, .set 5)] state := fun fuel written' puts' => by
            obtain ⟨-, rfl⟩ := execute_unique puts puts'
            exact .of_drain drained
          obtain ⟨fuel, next', runs, first, others⟩ := no_stale_nested_run Nesting.fits reached covers (by simpa using valued) returning
          obtain ⟨-, rfl⟩ := execute_unique ends (runs fuel le_rfl)
          obtain ⟨⟨top, waits, highest, _, began⟩, stops⟩ := first 3 4 ((roused 3).mpr (by simp)) ((roused 4).mpr (by simp))
            under (by decide)
          have outermost : top = 3 := by
            have older := highest.not_older reached.orderly
            have known := (roused top).mp waits
            simp only [mem_cons, not_mem_nil, or_false] at known
            exact known.resolve_right fun same => absurd (same ▸ older) (by decide)
          have present : ∀ {e}, ((next.graph.owners.get? e).bind Owner.body).isSome = true →
              ∃ o, next.graph.owners.get? e = some o ∧ o.body.isSome := by
            intro e acts
            obtain ⟨body, what⟩ := isSome_iff_exists.mp acts
            obtain ⟨o, found, is⟩ := bind_eq_some_iff.mp what
            exact ⟨o, found, by rw [is]; rfl⟩
          obtain ⟨there5, there6⟩ := Bool.and_eq_true_iff.mp ran
          obtain ⟨five, found5, acts5⟩ := present there5
          obtain ⟨six, found6, acts6⟩ := present there6
          obtain ⟨stopped, same⟩ := stops next .here
          have idle : ¬ state.Roused [1] 5 := fun waits => by simpa using (roused 5).mp waits
          exact ⟨state, fuel, next, reached, under, runs fuel le_rfl, outermost ▸ began, stopped, same,
            (others 5 five found5 acts5).2 (by rw [count]; decide) idle, (others 6 six found6 acts6).1 (.inl (by rw [count]))⟩
        · cases ran
      · cases ran
    · cases ran
  · cases ran

/-- Of three reactions inside each other the one in the middle is roused together with one that it has made, and goes
without running anew. -/
theorem roused_maker_goes_unrun : ∃ state next, Reached Nesting.meaning state ∧
    (∀ e o, state.graph.owners.get? e = some o → (Cast.quiet fun {ι} (_ : Nesting ι) => True).Covers none e o) ∧
    state.graph.Under 4 5 ∧ state.Roused [1] 4 ∧ state.Roused [1] 5 ∧
    (Program.batch (putAll [(1, .set 5)])).execute Nesting.meaning 9 state = .ok () next ∧ next.starts 4 = state.starts 4 := by
  have ran : (match (makeNested 2).execute Nesting.meaning 9 { outside := () } with
      | .ok _ state => state.nested [3, 4, 5] 4 5 &&
        match (Program.batch (putAll [(1, .set 5)])).execute Nesting.meaning 9 state with
        | .ok _ next => decide (next.starts 4 = state.starts 4)
        | .error _ _ => false
      | .error _ _ => false) = true := by decide +kernel
  split at ran
  · rename_i state returns
    obtain ⟨nested, ran⟩ := Bool.and_eq_true_iff.mp ran
    split at ran
    · rename_i next written
      obtain ⟨covers, under, roused, _⟩ := covers_of_nested nested
      exact ⟨state, next, .call (.start ()) (makeNested 2) 9 returns, covers, under, (roused 4).mpr (by simp),
        (roused 5).mpr (by simp), written, of_decide_eq_true ran⟩
    · cases ran
  · cases ran

end LiveMarkup.Reactive
