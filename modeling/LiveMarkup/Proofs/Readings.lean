import LiveMarkup.Proofs.Networks

/-!
Programs that only read. Such a program looks at the state outside the graph, reads cells with tracking and runs tasks
that only read. What it gives depends on nothing but the values of the cells that it has read, and it leaves its observer
subscribed to these. `Attains` says that a run comes to one certain end, however many jobs may stand inside each other
beyond those it needs.
-/

namespace LiveMarkup.Reactive

variable {P : Type → Type} {σ ν : Type} {α β : Type}

section Attaining

variable {graph : Graph P ν} {outside : σ} {post : α → Graph P ν → σ → Prop}
variable {graph' : Graph P ν} {outside' : σ} {act : Nat → Run P σ ν α} {value : α} {after : β → Graph P ν → σ → Prop}
  {wider : α → Graph P ν → σ → Prop}

/-- With enough jobs inside each other, what is run comes to one end, which is as said. -/
def Attains (act : Nat → Run P σ ν α) (graph : Graph P ν) (outside : σ) (post : α → Graph P ν → σ → Prop) : Prop :=
  ∃ result graph' outside', post result graph' outside' ∧ ∃ level, Ensures level act graph outside
    fun value after beyond => value = result ∧ after = graph' ∧ beyond = outside'

theorem Ensures.attains {result : α} (level : Nat)
    (ensures : Ensures level act graph outside fun value after beyond => value = result ∧ after = graph' ∧ beyond = outside')
    (holds : post result graph' outside') : Attains act graph outside post :=
  ⟨result, graph', outside', holds, level, ensures⟩

theorem Ensures.attains_done {act : Nat → Run P σ ν Unit} {post : Graph P ν → σ → Prop} (level : Nat)
    (ensures : Ensures level act graph outside fun _ after beyond => after = graph' ∧ beyond = outside')
    (holds : post graph' outside') : Attains act graph outside fun _ => post :=
  ⟨(), graph', outside', holds, level, ensures.mono fun _ _ _ same => ⟨rfl, same⟩⟩

namespace Attains

variable {change : Graph P ν → Graph P ν}

theorem pure (holds : post value graph outside) : Attains (fun _ => Pure.pure value) graph outside post :=
  Ensures.attains 0 (.pure ⟨rfl, rfl, rfl⟩) holds

theorem bind {next : α → Nat → Run P σ ν β} (one : Attains act graph outside post)
    (two : ∀ value graph' outside', post value graph' outside' → Attains (next value) graph' outside' after) :
    Attains (fun fuel => act fuel >>= fun value => next value fuel) graph outside after := by
  obtain ⟨value, graph', outside', holds, level, ensures⟩ := one
  obtain ⟨_, _, _, ended, higher, continues⟩ := two value graph' outside' holds
  refine Ensures.attains (max level higher) ((ensures.raise (Nat.le_max_left ..)).bind ?_) ended
  rintro _ _ _ ⟨rfl, rfl, rfl⟩
  exact continues.raise (Nat.le_max_right ..)

theorem mono (attains : Attains act graph outside post)
    (weaker : ∀ value graph' outside', post value graph' outside' → wider value graph' outside') :
    Attains act graph outside wider := by
  obtain ⟨value, graph', outside', holds, ensures⟩ := attains
  exact ⟨value, graph', outside', weaker _ _ _ holds, ensures⟩

theorem and (one : Attains act graph outside post) (two : Attains act graph outside wider) :
    Attains act graph outside fun value graph' outside' => post value graph' outside' ∧ wider value graph' outside' := by
  obtain ⟨value, graph', outside', holds, level, ensures⟩ := one
  obtain ⟨_, _, _, holds', higher, ensures'⟩ := two
  obtain ⟨_, _, _, _, ran, rfl, rfl, rfl⟩ := ensures (max level higher) [] (Nat.le_max_left ..)
  obtain ⟨_, _, _, _, again, rfl, rfl, rfl⟩ := ensures' (max level higher) [] (Nat.le_max_right ..)
  cases ran.symm.trans again
  exact ⟨_, _, _, ⟨holds, holds'⟩, level, ensures⟩

theorem see {ι : Type} {view : Graph P ν → ι} {next : ι → Nat → Run P σ ν α}
    (attains : Attains (next (view graph)) graph outside post) :
    Attains (fun fuel => Run.seeGraph view >>= fun value => next value fuel) graph outside post :=
  attains

theorem alter {next : Nat → Run P σ ν α} (attains : Attains next (change graph) outside post) :
    Attains (fun fuel => Run.alterGraph change >>= fun _ => next fuel) graph outside post :=
  attains

theorem altered {post : Unit → Graph P ν → σ → Prop} (holds : post () (change graph) outside) :
    Attains (fun _ => Run.alterGraph change) graph outside post :=
  Ensures.attains 0 (fun _ history _ => ⟨(), _, _, history, rfl, rfl, rfl, rfl⟩) holds

theorem note {happening : Happening} {next : Nat → Run P σ ν α} (attains : Attains next graph outside post) :
    Attains (fun fuel => Run.note happening >>= fun _ => next fuel) graph outside post := by
  obtain ⟨_, _, _, holds, level, ensures⟩ := attains
  exact Ensures.attains level (.note ensures) holds

theorem inContext {owner observer : Option OwnerId}
    (attains : Attains act { graph with owner, observer } outside fun value graph' outside' =>
      post value { graph' with owner := graph.owner, observer := graph.observer } outside') :
    Attains (fun fuel => Run.inContext owner observer (act fuel)) graph outside post := by
  unfold Run.inContext
  exact see (alter (attains.bind fun _ _ _ holds => alter (pure holds)))

variable [BEq ν] {meaning : Interpretation P σ ν}

theorem job {job : Job P α} (attains : Attains (fun fuel => Job.step meaning (Job.run meaning fuel) job) graph outside post) :
    Attains (fun fuel => Job.run meaning fuel job) graph outside post := by
  obtain ⟨_, _, _, holds, level, ensures⟩ := attains
  exact Ensures.attains (level + 1) (.job ensures) holds

theorem inBatch {middle : α → Graph P ν → σ → Prop}
    (body : Attains act { graph with batchDepth := graph.batchDepth + 1 } outside middle)
    (ends : ∀ value graph' outside', middle value graph' outside' →
      Attains (fun fuel => if graph'.batchDepth - 1 = 0 then Run.flush (Job.run meaning fuel) else Pure.pure ())
        { graph' with batchDepth := graph'.batchDepth - 1 } outside' fun _ => post value) :
    Attains (fun fuel => Run.inBatch (Job.run meaning fuel) (act fuel)) graph outside post := by
  unfold Run.inBatch
  refine alter (body.bind fun value graph' outside' holds => ?_)
  refine alter (see ?_)
  have last := ends value graph' outside' holds
  dsimp only
  split
  · rename_i top
    simp only [if_pos top] at last
    exact last.bind fun _ _ _ after => pure after
  · rename_i nested
    simp only [if_neg nested] at last
    exact last.bind fun _ _ _ after => pure after

end Attains

variable [BEq ν] {meaning : Interpretation P σ ν}

namespace Program

variable {next : α → Program P σ ν β}

def Attains (meaning : Interpretation P σ ν) (program : Program P σ ν α) (graph : Graph P ν) (outside : σ)
    (post : α → Graph P ν → σ → Prop) : Prop :=
  Reactive.Attains (fun fuel => program.run (Job.run meaning fuel)) graph outside post

theorem attains_pure (holds : post value graph outside) :
    Program.Attains meaning (Pure.pure value) graph outside post :=
  Reactive.Attains.pure holds

theorem Attains.mono {program : Program P σ ν α} (attains : program.Attains meaning graph outside post)
    (weaker : ∀ value graph' outside', post value graph' outside' → wider value graph' outside') :
    program.Attains meaning graph outside wider :=
  Reactive.Attains.mono attains weaker

theorem Attains.bind {program : Program P σ ν α} {next : α → Program P σ ν β}
    (one : program.Attains meaning graph outside post)
    (two : ∀ value graph' outside', post value graph' outside' → (next value).Attains meaning graph' outside' after) :
    (program >>= next).Attains meaning graph outside after := by
  simp only [Program.Attains, run_bind]
  exact Reactive.Attains.bind one two

theorem attains_perform {c : Command P σ ν α}
    (attains : Reactive.Attains (fun fuel => Run.command (Job.run meaning fuel) c) graph outside post) :
    (perform c).Attains meaning graph outside post :=
  Reactive.Attains.bind attains fun _ _ _ holds => .pure holds

theorem changing_attains {change : σ → α × σ} {post : β → Graph P ν → σ → Prop}
    (attains : (next (change outside).1).Attains meaning graph (change outside).2 post) :
    (changing change >>= next).Attains meaning graph outside post :=
  attains

theorem seeing_attains {view : σ → α} {post : β → Graph P ν → σ → Prop}
    (attains : (next (view outside)).Attains meaning graph outside post) :
    (seeing view >>= next).Attains meaning graph outside post :=
  attains

theorem currentOwner_attains {next : Option OwnerId → Program P σ ν β} {post : β → Graph P ν → σ → Prop}
    (attains : (next graph.owner).Attains meaning graph outside post) :
    (perform .currentOwner >>= next).Attains meaning graph outside post :=
  attains

theorem attains_ownedBy {body : Program P σ ν α} {owner : OwnerId}
    (attains : body.Attains meaning { graph with owner := some owner, observer := none } outside
      fun value graph' outside' => post value { graph' with owner := graph.owner, observer := graph.observer } outside') :
    (ownedBy owner body).Attains meaning graph outside post :=
  Reactive.Attains.bind (Reactive.Attains.inContext attains) fun _ _ _ holds => .pure holds

end Program

end Attaining

section Reading

variable (meaning : Interpretation P σ ν) (holds : σ → Prop) (values : CellId → ν)
variable {program : Program P σ ν α} {cells : List CellId} {result : α}

/-- A program only reads. In states that satisfy `holds`, and with the given values of the cells, it gives a result and
has read the listed cells, in order. -/
inductive Reads : {α : Type} → Program P σ ν α → α → List CellId → Prop where
  | done {α : Type} (result : α) : Reads (.done result) result []
  /-- What is seen outside the graph is the same in all these states, and is left as it is. -/
  | look {ι α : Type} {change : σ → ι × σ} {next : ι → Program P σ ν α} {result : α} {cells : List CellId} (seen : ι)
      (same : ∀ s, holds s → change s = (seen, s)) (rest : Reads (next seen) result cells) :
      Reads (.command (.state change) next) result cells
  | read {α : Type} {next : Option ν → Program P σ ν α} {result : α} {cells : List CellId} (cell : CellId)
      (rest : Reads (next (some (values cell))) result cells) :
      Reads (.command (.read true cell) next) result (cell :: cells)
  | call {ι α : Type} {task : P ι} {next : ι → Program P σ ν α} {found : ι} {result : α} {inner outer : List CellId}
      (first : Reads (meaning task) found inner) (rest : Reads (next found) result outer) :
      Reads (.command (.call task) next) result (inner ++ outer)

variable {meaning holds values}

theorem reads_get (cell : CellId) : Reads meaning holds values (Program.get true cell) (values cell) [cell] :=
  .read cell (.done _)

theorem Reads.bind {program : Program P σ ν α} {next : α → Program P σ ν β} {found : α} {result : β}
    {inner outer : List CellId} (first : Reads meaning holds values program found inner)
    (rest : Reads meaning holds values (next found) result outer) :
    Reads meaning holds values (program >>= next) result (inner ++ outer) := by
  show Reads meaning holds values (program.bind next) _ _
  induction first with
  | done => exact rest
  | look seen same _ ih => exact .look seen same (ih rest)
  | read cell _ ih => exact .read cell (ih rest)
  | call first _ _ ih =>
    rw [List.append_assoc]
    exact .call first (ih rest)

theorem Reads.congr {other : CellId → ν} (reads : Reads meaning holds values program result cells)
    (same : ∀ c ∈ cells, other c = values c) : Reads meaning holds other program result cells := by
  induction reads with
  | done result => exact .done result
  | look seen steady _ ih => exact .look seen steady (ih same)
  | read cell _ ih =>
    refine .read cell ?_
    rw [same cell (by simp)]
    exact ih fun c mem => same c (List.mem_cons_of_mem cell mem)
  | call _ _ one two =>
    exact .call (one fun c mem => same c (List.mem_append_left _ mem))
      (two fun c mem => same c (List.mem_append_right _ mem))

theorem Reads.unique {first second : α} {some other : List CellId} {outside : σ} (steady : holds outside)
    (one : Reads meaning holds values program first some) (two : Reads meaning holds values program second other) :
    first = second ∧ some = other := by
  induction one generalizing other with
  | done =>
    cases two
    exact ⟨rfl, rfl⟩
  | look seen same _ ih =>
    cases two with
    | look again alike rest =>
      obtain rfl : again = seen := (Prod.mk.inj ((alike outside steady).symm.trans (same outside steady))).1
      exact ih rest
  | read cell _ ih =>
    cases two with
    | read _ rest =>
      obtain ⟨rfl, rfl⟩ := ih rest
      exact ⟨rfl, rfl⟩
  | call _ _ inner outer =>
    cases two with
    | call head rest =>
      obtain ⟨rfl, rfl⟩ := inner head
      obtain ⟨rfl, rfl⟩ := outer rest
      exact ⟨rfl, rfl⟩

def Graph.trackAll (graph : Graph P ν) (cells : List CellId) : Graph P ν := cells.foldl Graph.track graph

/-- Where cells are there they have the given values, and nobody is updating them. -/
def Graph.Shows (graph : Graph P ν) (values : CellId → ν) : Prop :=
  ∀ cell slot, graph.cells.get? cell = some slot → slot.inUse = false ∧ slot.value = some (values cell)

variable {graph : Graph P ν} {outside : σ}

theorem Graph.cells_track (graph : Graph P ν) (cell other : CellId) : (graph.track cell).cells.get? other =
      if other = cell then (graph.cells.get? other).map fun slot =>
        { slot with subscribers := match graph.observer with
          | none => slot.subscribers
          | some observer => insertSorted observer slot.subscribers }
      else graph.cells.get? other := by
  unfold Graph.track
  cases graph.observer with
  | none => cases found : graph.cells.get? other <;> simp
  | some =>
    dsimp only
    split
    · exact Table.get?_modify ..
    · rename_i gone
      split
      · rename_i same
        subst same
        simp only [cellAlive, Table.contains, Option.not_isSome_iff_eq_none] at gone
        simp [gone]
      · rfl

theorem Graph.cellAlive_track (graph : Graph P ν) (cell other : CellId) :
    (graph.track cell).cellAlive other = graph.cellAlive other := by
  unfold cellAlive Table.contains
  rw [cells_track]
  split <;> simp

theorem Graph.Shows.track (shows : graph.Shows values) (cell : CellId) : (graph.track cell).Shows values := by
  intro other slot found
  rw [Graph.cells_track] at found
  split at found
  · obtain ⟨old, there, rfl⟩ := Option.map_eq_some_iff.mp found
    exact shows other old there
  · exact shows other slot found

theorem Graph.cellAlive_trackAll (graph : Graph P ν) (cells : List CellId) (other : CellId) :
    (graph.trackAll cells).cellAlive other = graph.cellAlive other := by
  induction cells generalizing graph with
  | nil => rfl
  | cons cell _ ih => exact (ih (graph.track cell)).trans (graph.cellAlive_track cell other)

theorem Graph.Shows.trackAll (shows : graph.Shows values) (cells : List CellId) : (graph.trackAll cells).Shows values := by
  induction cells generalizing graph with
  | nil => exact shows
  | cons cell _ ih => exact ih (shows.track cell)

variable [BEq ν]

theorem Reads.ensures {program : Program P σ ν α} {result : α} {cells : List CellId}
    (reads : Reads meaning holds values program result cells) (steady : holds outside) (shows : graph.Shows values)
    (alive : ∀ c ∈ cells, graph.cellAlive c = true) :
    ∃ level, program.Ensures meaning level graph outside fun value graph' outside' =>
      value = result ∧ graph' = graph.trackAll cells ∧ outside' = outside := by
  induction reads generalizing graph with
  | done => exact ⟨0, Program.ensures_pure ⟨rfl, rfl, rfl⟩⟩
  | @look _ _ change next _ _ _ same _ ih =>
    obtain ⟨level, ensures⟩ := ih shows alive
    have step : (Program.changing change >>= next).Ensures meaning level graph outside _ :=
      Program.changing_then (by rw [same outside steady]; exact ensures)
    exact ⟨level, step⟩
  | @read _ next _ _ cell _ ih =>
    obtain ⟨level, ensures⟩ := ih (shows.track cell) fun c mem =>
      (graph.cellAlive_track cell c).trans (alive c (List.mem_cons_of_mem cell mem))
    have there : ((graph.track cell).cells.get? cell).isSome :=
      (graph.cellAlive_track cell cell).trans (alive cell (by simp))
    obtain ⟨slot, found⟩ := Option.isSome_iff_exists.mp there
    obtain ⟨free, held⟩ := shows.track cell cell slot found
    have first : (Program.perform (.read true cell) : Program P σ ν _).Ensures meaning level graph outside
        fun read graph' outside' => read = some (values cell) ∧ graph' = graph.track cell ∧ outside' = outside :=
      Program.ensures_perform (ensures_read_slot found free held)
    refine ⟨level, ?_⟩
    show (Program.perform (.read true cell) >>= next).Ensures _ level graph outside _
    refine first.bind ?_
    rintro _ _ _ ⟨rfl, rfl, rfl⟩
    exact ensures
  | @call _ _ task next _ _ inner _ _ _ one two =>
    obtain ⟨level, first⟩ := one shows fun c mem => alive c (List.mem_append_left _ mem)
    obtain ⟨higher, second⟩ := two (shows.trackAll inner) fun c mem =>
      (graph.cellAlive_trackAll inner c).trans (alive c (List.mem_append_right _ mem))
    have called : (Program.call task).Ensures meaning (max level higher + 1) graph outside _ :=
      Program.ensures_call (first.raise (Nat.le_max_left level higher))
    refine ⟨max level higher + 1, ?_⟩
    show (Program.call task >>= next).Ensures _ _ graph outside _
    refine called.bind ?_
    rintro _ _ _ ⟨rfl, rfl, rfl⟩
    refine (second.raise (by omega)).mono ?_
    rintro _ _ _ ⟨rfl, rfl, rfl⟩
    exact ⟨rfl, (List.foldl_append ..).symm, rfl⟩

theorem Reads.attains_task {task : P α} (reads : Reads meaning holds values (meaning task) result cells)
    (steady : holds outside) (shows : graph.Shows values) (alive : ∀ c ∈ cells, graph.cellAlive c = true) :
    Attains (fun fuel => Job.run meaning fuel (.perform task)) graph outside fun value graph' outside' =>
      value = result ∧ graph' = graph.trackAll cells ∧ outside' = outside := by
  obtain ⟨level, ensures⟩ := reads.ensures steady shows alive
  exact ensures.task.attains (level + 1) ⟨rfl, rfl, rfl⟩

end Reading

end LiveMarkup.Reactive
