import LiveMarkup.Proofs.NoLostUpdate
import Mathlib.Data.List.Induction
import Mathlib.Data.List.Nodup

/-!
Programs that come to their end, and what they leave. `Ensures` says it of everything that is run, with one rule for
each way of putting runs together. On top of it stands what a root with its reactions does: each reaction reads one cell,
runs again when the cell is written, and is gone with its root.
-/

namespace LiveMarkup.Reactive
open List Function Reactive.Graph Program Nat
open Run hiding command
open Table hiding contains modify

variable {P : Type → Type} {σ ν : Type}

section Rules

/-- With at least `level` jobs inside each other, what is run comes to its end, and what it gives and leaves is as
said. -/
def Ensures {α : Type} (level : Nat) (act : Nat → Run P σ ν α) (graph : Graph P ν) (outside : σ)
    (post : α → Graph P ν → σ → Prop) : Prop :=
  ∀ fuel history, level ≤ fuel → ∃ result graph' outside' history',
    act fuel ⟨graph, outside, history⟩ = .ok result ⟨graph', outside', history'⟩ ∧ post result graph' outside'

variable {α β : Type} {level : Nat} {graph : Graph P ν} {outside : σ} {post : α → Graph P ν → σ → Prop}
  {after : β → Graph P ν → σ → Prop} {wider : α → Graph P ν → σ → Prop} {higher : Nat}

namespace Ensures

variable {next act : Nat → Run P σ ν α}

theorem pure {value : α} (holds : post value graph outside) :
    Ensures level (fun _ => Pure.pure value) graph outside post :=
  fun _ history _ => ⟨value, graph, outside, history, rfl, holds⟩

theorem bind {act : Nat → Run P σ ν α} {next : α → Nat → Run P σ ν β} (one : Ensures level act graph outside post)
    (two : ∀ value graph' outside', post value graph' outside' → Ensures level (next value) graph' outside' after) :
    Ensures level (fun fuel => act fuel >>= fun value => next value fuel) graph outside after := by
  intro fuel history enough
  obtain ⟨value, graph', outside', history', ran, holds⟩ := one fuel history enough
  obtain ⟨result, graph'', outside'', history'', continued, ended⟩ := two value graph' outside' holds fuel history' enough
  refine ⟨result, graph'', outside'', history'', ?_, ended⟩
  rw [← continued]
  show EStateM.bind _ _ _ = _
  rw [EStateM.bind, ran]

theorem mono (ensures : Ensures level act graph outside post)
    (weaker : ∀ value graph' outside', post value graph' outside' → wider value graph' outside') :
    Ensures level act graph outside wider := by
  intro fuel history enough
  obtain ⟨value, graph', outside', history', ran, holds⟩ := ensures fuel history enough
  exact ⟨value, graph', outside', history', ran, weaker _ _ _ holds⟩

theorem raise (ensures : Ensures level act graph outside post) (above : level ≤ higher) :
    Ensures higher act graph outside post :=
  fun fuel history enough => ensures fuel history (above.trans enough)

theorem see {ι : Type} {view : Graph P ν → ι} {next : ι → Nat → Run P σ ν α}
    (ensures : Ensures level (next (view graph)) graph outside post) :
    Ensures level (fun fuel => seeGraph view >>= fun value => next value fuel) graph outside post :=
  ensures

theorem alter {change : Graph P ν → Graph P ν} (ensures : Ensures level next (change graph) outside post) :
    Ensures level (fun fuel => alterGraph change >>= fun _ => next fuel) graph outside post :=
  ensures

theorem note {happening : Happening} (ensures : Ensures level next graph outside post) :
    Ensures level (fun fuel => note happening >>= fun _ => next fuel) graph outside post :=
  fun fuel history enough => ensures fuel (happening :: history) enough

theorem inContext {act : Nat → Run P σ ν α} {owner observer : Option OwnerId}
    (ensures : Ensures level act { graph with owner, observer } outside fun value graph' outside' =>
      post value { graph' with owner := graph.owner, observer := graph.observer } outside') :
    Ensures level (fun fuel => Run.inContext owner observer (act fuel)) graph outside post := by
  unfold Run.inContext
  refine see (alter ?_)
  exact ensures.bind fun _ _ _ holds => alter (pure holds)

variable [BEq ν] {meaning : Interpretation P σ ν}

theorem job {job : Job P α}
    (ensures : Ensures level (fun fuel => Job.step meaning (Job.run meaning fuel) job) graph outside post) :
    Ensures (level + 1) (fun fuel => Job.run meaning fuel job) graph outside post := by
  intro fuel history enough
  cases fuel with
  | zero => simp at enough
  | succ fuel => exact ensures fuel history (le_of_succ_le_succ enough)

end Ensures

variable [BEq ν] {meaning : Interpretation P σ ν}

namespace Program

variable {value : α}
variable {next : α → Program P σ ν β} {body : Program P σ ν α} {between state : State P σ ν} {change : σ → α × σ}
  {program : Program P σ ν α} {self : Runner P σ ν}

def Ensures (meaning : Interpretation P σ ν) (level : Nat) (program : Program P σ ν α) (graph : Graph P ν)
    (outside : σ) (post : α → Graph P ν → σ → Prop) : Prop :=
  Reactive.Ensures level (fun fuel => program.run (Job.run meaning fuel)) graph outside post

theorem Ensures.mono (ensures : program.Ensures meaning level graph outside post)
    (weaker : ∀ value graph' outside', post value graph' outside' → wider value graph' outside') :
    program.Ensures meaning level graph outside wider :=
  Reactive.Ensures.mono ensures weaker

theorem Ensures.raise (ensures : program.Ensures meaning level graph outside post) (above : level ≤ higher) :
    program.Ensures meaning higher graph outside post :=
  Reactive.Ensures.raise ensures above

theorem ensures_pure (holds : post value graph outside) : Program.Ensures meaning level (Pure.pure value) graph outside post :=
  Reactive.Ensures.pure holds

theorem Ensures.bind {next : α → Program P σ ν β} (one : program.Ensures meaning level graph outside post)
    (two : ∀ value graph' outside', post value graph' outside' →
      (next value).Ensures meaning level graph' outside' after) :
    (program >>= next).Ensures meaning level graph outside after := by
  simp only [Program.Ensures, run_bind]
  exact Reactive.Ensures.bind one two

omit [BEq ν] in
theorem bind_ok {next : α → Program P σ ν β} {result : β}
    {state final : State P σ ν} (ran : (program >>= next).run self state = .ok result final) :
    ∃ value between, program.run self state = .ok value between ∧ (next value).run self between = .ok result final := by
  rw [run_bind] at ran
  exact Reactive.bind_ok ran

theorem run_call {task : P α} {fuel : Nat} (ran : (meaning task).run (Job.run meaning fuel) state = .ok value between) :
    (call task : Program P σ ν α).run (Job.run meaning (fuel + 1)) state = .ok value between := by
  show EStateM.bind (Job.step meaning (Job.run meaning fuel) (.perform task)) _ _ = _
  rw [EStateM.bind, Job.step, ran]
  rfl

theorem ensures_perform {c : Command P σ ν α}
    (ensures : Reactive.Ensures level (fun fuel => Run.command (Job.run meaning fuel) c) graph outside post) :
    (perform c).Ensures meaning level graph outside post :=
  Reactive.Ensures.bind ensures fun _ _ _ holds => .pure holds

theorem ensures_changing (holds : post (change outside).1 graph (change outside).2) :
    (changing change : Program P σ ν α).Ensures meaning level graph outside post :=
  ensures_perform fun _ history _ => ⟨_, graph, _, history, rfl, holds⟩

theorem changing_then {post : β → Graph P ν → σ → Prop}
    (ensures : (next (change outside).1).Ensures meaning level graph (change outside).2 post) :
    (changing change >>= next).Ensures meaning level graph outside post :=
  ensures

theorem seeing_then {view : σ → α} {post : β → Graph P ν → σ → Prop}
    (ensures : (next (view outside)).Ensures meaning level graph outside post) :
    (seeing view >>= next).Ensures meaning level graph outside post :=
  ensures

theorem altering_then {change : σ → σ} {next : Unit → Program P σ ν β} {post : β → Graph P ν → σ → Prop}
    (ensures : (next ()).Ensures meaning level graph (change outside) post) :
    (altering change >>= next).Ensures meaning level graph outside post :=
  ensures

theorem currentOwner_then {next : Option OwnerId → Program P σ ν β} {post : β → Graph P ν → σ → Prop}
    (ensures : (next graph.owner).Ensures meaning level graph outside post) :
    (perform .currentOwner >>= next).Ensures meaning level graph outside post :=
  ensures

theorem Ensures.task {task : P α} (ensures : (meaning task).Ensures meaning level graph outside post) :
    Reactive.Ensures (level + 1) (fun fuel => Job.run meaning fuel (.perform task)) graph outside post :=
  Reactive.Ensures.job ensures

theorem ensures_call {task : P α} (ensures : (meaning task).Ensures meaning level graph outside post) :
    (call task : Program P σ ν α).Ensures meaning (level + 1) graph outside post :=
  ensures_perform ensures.task

theorem ensures_untracked
    (ensures : body.Ensures meaning level { graph with observer := none } outside fun value graph' outside' =>
      post value { graph' with owner := graph.owner, observer := graph.observer } outside') :
    (untracked body).Ensures meaning level graph outside post := by
  have mem : Reactive.Ensures level
      (fun fuel => inSetting (Job.run meaning fuel) .untracked (body.run (Job.run meaning fuel))) graph outside
      post := .see (.inContext ensures)
  exact mem.bind fun _ _ _ holds => .pure holds

theorem ensures_ownedBy {owner : OwnerId}
    (ensures : body.Ensures meaning level { graph with owner := some owner, observer := none } outside
      fun value graph' outside' => post value { graph' with owner := graph.owner, observer := graph.observer } outside') :
    (ownedBy owner body).Ensures meaning level graph outside post := by
  have mem : Reactive.Ensures level
      (fun fuel => inSetting (Job.run meaning fuel) (.ownedBy owner) (body.run (Job.run meaning fuel))) graph outside
      post := .inContext ensures
  exact mem.bind fun _ _ _ holds => .pure holds

theorem ensures_mapM {f : α → Program P σ ν β} {stage : List α → List β → σ → Prop} {items : List α}
    (each : ∀ item rest results outside, stage (item :: rest) results outside →
      (f item).Ensures meaning level graph outside fun result graph' outside' =>
        graph' = graph ∧ stage rest (results ++ [result]) outside')
    (start : stage items [] outside) :
    (items.mapM f).Ensures meaning level graph outside
      fun results graph' outside' => graph' = graph ∧ stage [] results outside' := by
  suffices loop : ∀ (results : List β) (outside : σ), stage items results.reverse outside →
      (mapM.loop f items results).Ensures meaning level graph outside
        fun results graph' outside' => graph' = graph ∧ stage [] results outside' from loop [] outside start
  clear start
  induction items with
  | nil =>
    intro results outside holds
    exact ensures_pure ⟨rfl, holds⟩
  | cons item items ih =>
    intro results outside holds
    refine (each item items results.reverse outside holds).bind ?_
    rintro result _ outside' ⟨rfl, later⟩
    exact ih (result :: results) outside' (by simpa using later)

end Program

end Rules

section Order

variable {list : List Nat} {n : Nat}

theorem insertSorted_of_lt (above : ∀ m ∈ list, m < n) : insertSorted n list = list ++ [n] := by
  induction list with
  | nil => rfl
  | cons first _ ih =>
    have small := above first (by simp)
    rw [insertSorted, if_neg (Nat.not_lt_of_lt small), if_neg small.ne',
      ih fun m mem => above m (mem_cons_of_mem first mem)]
    rfl

section

variable (order : list.Pairwise (· < ·))
include order

theorem insertSorted_filter_ne (mem : n ∈ list) : insertSorted n (list.filter (· != n)) = list := by
  induction list with
  | nil => simp at mem
  | cons first rest ih =>
    obtain ⟨least, order⟩ := pairwise_cons.mp order
    by_cases here : first = n
    · subst here
      have others : (first :: rest).filter (· != first) = rest := by
        rw [filter_cons_of_neg (by simp)]
        exact filter_eq_self.mpr fun m later => by simpa using (least m later).ne'
      rw [others]
      cases rest with
      | nil => rfl
      | cons second => rw [insertSorted, if_pos (least second (by simp))]
    · have later : n ∈ rest := (mem_cons.mp mem).resolve_left fun same => here same.symm
      have small := least n later
      rw [filter_cons_of_pos (by simpa using here), insertSorted, if_neg (Nat.not_lt_of_lt small),
        if_neg small.ne', ih order later]

theorem pairwise_insertSorted : (insertSorted n list).Pairwise (· < ·) := by
  induction list with
  | nil => simp [insertSorted]
  | cons _ rest ih =>
    obtain ⟨least, later⟩ := pairwise_cons.mp order
    unfold insertSorted
    split
    · rename_i below
      refine pairwise_cons.mpr ⟨fun m mem => ?_, order⟩
      rcases mem_cons.mp mem with rfl | there
      · exact below
      · exact below.trans (least m there)
    · split
      · exact order
      · refine pairwise_cons.mpr ⟨fun m mem => ?_, ih later⟩
        rcases (mem_insertSorted n m rest).mp mem with rfl | there
        · omega
        · exact least m there

theorem pairwise_foldl_insertSorted {more : List Nat} :
    (more.foldl (fun queue id => insertSorted id queue) list).Pairwise (· < ·) := by
  induction more generalizing list with
  | nil => exact order
  | cons _ _ ih => exact ih (pairwise_insertSorted order)

theorem foldl_insertSorted {before : List Nat} (above : ∀ m ∈ before, ∀ n ∈ list, m < n) :
    list.foldl (fun queue id => insertSorted id queue) before = before ++ list := by
  induction list generalizing before with
  | nil => simp
  | cons first _ ih =>
    obtain ⟨least, order⟩ := pairwise_cons.mp order
    rw [foldl_cons, insertSorted_of_lt fun m mem => above m mem first (by simp), ih order]
    · simp
    · intro m mem n later
      rcases mem_append.mp mem with old | new
      · exact above m old n (mem_cons_of_mem first later)
      · rw [mem_singleton.mp new]
        exact least n later

end

end Order

section Wiring

variable {value : ν} {next : Graph P ν} {cell : CellId}

structure Watch (P : Type → Type) where
  id : OwnerId
  cell : CellId
  task : P Unit

def subscribersIn (watches : List (Watch P)) (cell : CellId) : List OwnerId :=
  (watches.filter (·.cell = cell)).map Watch.id

/-- A root owns reactions, each of which has read one cell; `values` are those of the cells at hand. -/
structure Wired (graph : Graph P ν) (root : OwnerId) (cleanups : List (P Unit)) (values : CellId → Option ν)
    (watches : List (Watch P)) : Prop where
  root_eq : graph.owners.get? root =
    some { parent := none, body := none, children := watches.map Watch.id, cleanups }
  watch_eq : ∀ watch ∈ watches, graph.owners.get? watch.id =
    some { parent := some root, body := some (.effect watch.task), sources := [watch.cell] }
  cell_eq : ∀ cell value, values cell = some value →
    graph.cells.get? cell = some { value := some value, subscribers := subscribersIn watches cell }
  order : (root :: watches.map Watch.id).Pairwise (· < ·)
  bound : ∀ id ∈ root :: watches.map Watch.id, id < graph.nextId

structure AtRest (graph : Graph P ν) (owner : Option OwnerId) : Prop where
  queue_eq : graph.queue = []
  flushing_eq : graph.flushing = false
  depth_eq : graph.batchDepth = 0
  owner_eq : graph.owner = owner
  observer_eq : graph.observer = none

structure Attends (graph : Graph P ν) (root id : OwnerId) (cell : CellId) (value : ν) : Prop where
  owner_eq : graph.owner = some id
  observer_eq : graph.observer = some id
  self_alive : graph.ownerAlive id = true
  root_alive : graph.ownerAlive root = true
  cell_eq : ∃ subscribers, graph.cells.get? cell = some { value := some value, subscribers }

variable {graph : Graph P ν} {root : OwnerId} {cleanups : List (P Unit)} {values : CellId → Option ν}
  {watches : List (Watch P)}

theorem Attends.alive {id : OwnerId} (attends : Attends graph root id cell value) : graph.cellAlive cell = true := by
  obtain ⟨_, found⟩ := attends.cell_eq
  simp [cellAlive, Table.contains, found]

theorem Attends.track {id : OwnerId} {cell : CellId} {value : ν} (attends : Attends graph root id cell value) :
    Attends (graph.track cell) root id cell value := by
  obtain ⟨subscribers, found⟩ := attends.cell_eq
  have tracked : graph.track cell = { graph with
      cells := graph.cells.modify cell fun c => { c with subscribers := insertSorted id c.subscribers }
      owners := graph.owners.modify id fun o =>
        { o with sources := if o.sources.contains cell then o.sources else cell :: o.sources } } := by
    rw [Graph.track, attends.observer_eq]
    simp [attends.alive]
  have there : ∀ owner, graph.ownerAlive owner = true → (graph.track cell).ownerAlive owner = true := by
    intro owner alive
    rw [tracked]
    by_cases same : owner = id <;> simp_all [Graph.ownerAlive, Table.contains]
  refine ⟨?_, ?_, there id attends.self_alive, there root attends.root_alive, insertSorted id subscribers, ?_⟩
  · rw [tracked]
    exact attends.owner_eq
  · rw [tracked]
    exact attends.observer_eq
  · rw [tracked]
    simp [found]

def Graph.opened (graph : Graph P ν) (id : OwnerId) (sources : List CellId) : Graph P ν :=
  { (graph.resetOwner id).release id sources [] with owner := some id, observer := some id }

def Graph.reran (graph : Graph P ν) (id : OwnerId) (sources : List CellId) (cell : CellId) : Graph P ν :=
  { (graph.opened id sources).track cell with owner := graph.owner, observer := graph.observer }

theorem Graph.owners_opened (graph : Graph P ν) (id : OwnerId) (sources : List CellId) (m : OwnerId) :
    (graph.opened id sources).owners.get? m =
      if m = id then (graph.owners.get? m).map fun o => { o with children := [], cleanups := [], cells := [], sources := [] }
      else graph.owners.get? m :=
  get?_modify ..

theorem Graph.cells_opened (graph : Graph P ν) (id : OwnerId) (sources : List CellId) (c : CellId) :
    (graph.opened id sources).cells.get? c =
      if c ∈ sources then (graph.cells.get? c).map fun s => { s with subscribers := s.subscribers.filter (· != id) }
      else graph.cells.get? c := by
  show ((sources.foldl (fun cells source =>
    cells.modify source fun c => { c with subscribers := c.subscribers.filter (· != id) }) graph.cells).eraseAll []).get? c = _
  rw [get?_eraseAll, if_neg (by simp)]
  generalize graph.cells = cells
  induction sources generalizing cells with
  | nil => simp
  | cons first rest ih =>
    rw [foldl_cons, ih, get?_modify]
    by_cases here : c = first <;> by_cases later : c ∈ rest <;> cases found : cells.get? c <;> simp [here, later]

theorem Graph.cells_release (graph : Graph P ν) (id : OwnerId) (sources dropped : List CellId) (c : CellId) :
    (graph.release id sources dropped).cells.get? c = if c ∈ dropped then none
      else if c ∈ sources then (graph.cells.get? c).map fun s => { s with subscribers := s.subscribers.filter (· != id) }
      else graph.cells.get? c := by
  have opened := graph.cells_opened id sources c
  show (eraseAll _ dropped).get? c = _
  rw [get?_eraseAll]
  split
  · rfl
  · exact opened

theorem Graph.owners_erased (graph : Graph P ν) (id m : OwnerId) :
    (graph.eraseOwner id).owners.get? m = if m = id then none else (graph.owners.get? m).map fun o =>
      if (graph.owners.get? id).bind Owner.parent = some m then { o with children := o.children.filter (· != id) } else o := by
  unfold eraseOwner
  cases (graph.owners.get? id).bind Owner.parent with
  | none =>
    show (erase _ _).get? m = _
    simp
  | some parent =>
    show (Table.modify _ _ _).get? m = _
    rw [get?_modify, get?_erase]
    by_cases gone : m = id
    · simp [gone]
    · by_cases above : m = parent
      · subst above
        simp [gone]
      · have apart : ¬ parent = m := fun same => above same.symm
        simp [gone, above, apart]

theorem Graph.reran_eq (graph : Graph P ν) (id : OwnerId) (sources : List CellId) (cell : CellId) :
    graph.reran id sources cell =
      { graph with
        cells := (graph.reran id sources cell).cells
        owners := (graph.reran id sources cell).owners } := by
  have frame : ∀ base : Graph P ν, base.track cell =
      { base with cells := (base.track cell).cells, owners := (base.track cell).owners } := by
    intro base
    unfold track
    split
    · rfl
    · split <;> rfl
  rw [reran, frame]
  rfl

section

variable {id : OwnerId} {sources : List CellId} {cell : CellId}

theorem Graph.owners_reran (alive : (graph.cells.get? cell).isSome) (m : OwnerId) :
    (graph.reran id sources cell).owners.get? m =
      if m = id then
        (graph.owners.get? m).map fun o => { o with children := [], cleanups := [], cells := [], sources := [cell] }
      else graph.owners.get? m := by
  have there : (graph.opened id sources).cellAlive cell = true := by
    rw [cellAlive, Table.contains, cells_opened]
    split <;> simp [alive]
  have tracked : (graph.reran id sources cell).owners.get? m = ((graph.opened id sources).owners.modify id fun o =>
      { o with sources := if o.sources.contains cell then o.sources else cell :: o.sources }).get? m := by
    unfold reran track
    rw [show (graph.opened id sources).observer = some id from rfl]
    simp only [there, if_true]
  rw [tracked, get?_modify, owners_opened]
  by_cases same : m = id <;> cases found : graph.owners.get? m <;> simp [same]

theorem Graph.cells_reran (alive : (graph.cells.get? cell).isSome) (mem : sources ⊆ [cell]) (c : CellId) :
    (graph.reran id sources cell).cells.get? c =
      if c = cell then (graph.cells.get? c).map fun s =>
        { s with
          subscribers := insertSorted id (if cell ∈ sources then s.subscribers.filter (· != id) else s.subscribers) }
      else graph.cells.get? c := by
  have there : (graph.opened id sources).cellAlive cell = true := by
    rw [cellAlive, Table.contains, cells_opened]
    split <;> simp [alive]
  have tracked : (graph.reran id sources cell).cells.get? c = ((graph.opened id sources).cells.modify cell fun s =>
      { s with subscribers := insertSorted id s.subscribers }).get? c := by
    unfold reran track
    rw [show (graph.opened id sources).observer = some id from rfl]
    simp only [there, if_true]
  rw [tracked, get?_modify, cells_opened]
  by_cases same : c = cell
  · subst same
    by_cases read : c ∈ sources <;> cases found : graph.cells.get? c <;> simp [read]
  · have apart : c ∉ sources := fun read => same (by simpa using mem read)
    simp [same, apart]

end

theorem pairwise_subscribersIn (wired : Wired graph root cleanups values watches) (cell : CellId) :
    (subscribersIn watches cell).Pairwise (· < ·) :=
  ((pairwise_cons.mp wired.order).2).sublist (filter_sublist.map Watch.id)

theorem mem_subscribersIn {watch : Watch P} (mem : watch ∈ watches) : watch.id ∈ subscribersIn watches watch.cell :=
  mem_map.mpr ⟨watch, mem_filter.mpr ⟨mem, by simp⟩, rfl⟩

section

variable (wired : Wired graph root cleanups values watches)
include wired

theorem Wired.watch_ext {first second : Watch P}
    (one : first ∈ watches) (two : second ∈ watches) (same : first.id = second.id) : first = second := by
  have once : (watches.map Watch.id).Nodup := (pairwise_cons.mp wired.order).2.imp ne_of_lt
  exact inj_on_of_nodup_map once one two same

theorem Wired.root_ne {watch : Watch P} (mem : watch ∈ watches) : root ≠ watch.id :=
  ((pairwise_cons.mp wired.order).1 _ (mem_map_of_mem mem)).ne

theorem Wired.attends {watch : Watch P} (mem : watch ∈ watches)
    (held : values watch.cell = some value) : Attends (graph.opened watch.id [watch.cell]) root watch.id watch.cell value := by
  refine ⟨rfl, rfl, ?_, ?_, (subscribersIn watches watch.cell).filter (· != watch.id), ?_⟩
  · simp [ownerAlive, Table.contains, owners_opened, wired.watch_eq watch mem]
  · simp [ownerAlive, Table.contains, owners_opened, wired.root_eq, wired.root_ne mem]
  · rw [cells_opened, if_pos (by simp), wired.cell_eq _ _ held]
    rfl

theorem Wired.reran {watch : Watch P} (mem : watch ∈ watches) (held : values watch.cell = some value) :
    Wired (graph.reran watch.id [watch.cell] watch.cell) root cleanups values watches := by
  have alive : (graph.cells.get? watch.cell).isSome := by simp [wired.cell_eq _ _ held]
  refine ⟨?_, ?_, ?_, wired.order, ?_⟩
  · rw [owners_reran alive, if_neg (wired.root_ne mem), wired.root_eq]
  · intro other there
    rw [owners_reran alive, wired.watch_eq other there]
    split
    · rename_i same
      rw [wired.watch_ext there mem same]
      rfl
    · rfl
  · intro cell value holds
    rw [cells_reran alive (by simp), wired.cell_eq cell value holds]
    split
    · rename_i same
      subst same
      simp only [Option.map_some, mem_singleton, if_true]
      rw [insertSorted_filter_ne (pairwise_subscribersIn wired _) (mem_subscribersIn mem)]
    · rfl
  · rw [reran_eq]
    exact wired.bound

theorem Wired.congr (cells : next.cells = graph.cells)
    (owners : next.owners = graph.owners) (nextId : next.nextId = graph.nextId) : Wired next root cleanups values watches :=
  ⟨owners ▸ wired.root_eq, owners ▸ wired.watch_eq, cells ▸ wired.cell_eq, wired.order, nextId ▸ wired.bound⟩

theorem Wired.store {old : ν} (held : values cell = some old)
    (owners : next.owners = graph.owners) (nextId : next.nextId = graph.nextId) (cells : ∀ other, next.cells.get? other =
      if other = cell then (graph.cells.get? other).map ({ · with value := some value }) else graph.cells.get? other) :
    Wired next root cleanups (update values cell (some value)) watches := by
  refine ⟨owners ▸ wired.root_eq, owners ▸ wired.watch_eq, ?_, wired.order, nextId ▸ wired.bound⟩
  intro other shown holds
  rw [cells]
  by_cases same : other = cell
  · subst same
    rw [update_self] at holds
    rw [if_pos rfl, wired.cell_eq other old held, ← holds]
    rfl
  · rw [update_of_ne same] at holds
    rw [if_neg same, wired.cell_eq other shown holds]

end

def Graph.begun (graph : Graph P ν) (owner : Option OwnerId) (body : Body P ν) : Graph P ν :=
  { (graph.newOwner owner (some body)).2 with batchDepth := graph.batchDepth + 1 }

section

variable (wired : Wired graph root cleanups values watches) (task : P Unit)
include wired

theorem Wired.fresh : ∀ id ∈ root :: watches.map Watch.id, id ≠ graph.nextId :=
  fun id mem => (wired.bound id mem).ne

theorem Wired.begun_self :
    (graph.begun (some root) (.effect task)).owners.get? graph.nextId = some { parent := some root, body := some (.effect task) } := by
  show (Table.modify _ _ _).get? _ = _
  rw [get?_modify, if_neg (wired.fresh root (by simp)).symm, get?_insert, if_pos rfl]

theorem Wired.begun_root : (graph.begun (some root) (.effect task)).owners.get? root = some
      { parent := none, body := none, children := watches.map Watch.id ++ [graph.nextId], cleanups } := by
  show (Table.modify _ _ _).get? _ = _
  rw [get?_modify, if_pos rfl, get?_insert, if_neg (wired.fresh root (by simp)), wired.root_eq]
  rfl

theorem Wired.begun_watch {watch : Watch P} (mem : watch ∈ watches) :
    (graph.begun (some root) (.effect task)).owners.get? watch.id =
      some { parent := some root, body := some (.effect watch.task), sources := [watch.cell] } := by
  have apart := wired.fresh watch.id (mem_cons_of_mem _ (mem_map_of_mem mem))
  show (Table.modify _ _ _).get? _ = _
  rw [get?_modify, if_neg (wired.root_ne mem).symm, get?_insert, if_neg apart, wired.watch_eq watch mem]

theorem Wired.begun_attends {cell : CellId} {value : ν} (held : values cell = some value) :
    Attends ((graph.begun (some root) (.effect task)).opened graph.nextId []) root graph.nextId cell value := by
  refine ⟨rfl, rfl, ?_, ?_, subscribersIn watches cell, ?_⟩
  · simp [ownerAlive, Table.contains, owners_opened, wired.begun_self task]
  · simp [ownerAlive, Table.contains, owners_opened, wired.begun_root task, wired.fresh root (by simp)]
  · rw [cells_opened, if_neg (by simp)]
    exact wired.cell_eq cell value held

theorem Wired.joined {cell : CellId} {value : ν} (held : values cell = some value) :
    Wired ((graph.begun (some root) (.effect task)).reran graph.nextId [] cell) root cleanups values
      (watches ++ [⟨graph.nextId, cell, task⟩]) := by
  have alive : ((graph.begun (some root) (.effect task)).cells.get? cell).isSome := by
    rw [show (graph.begun (some root) (.effect task)).cells = graph.cells from rfl, wired.cell_eq cell value held]
    rfl
  refine ⟨?_, ?_, ?_, ?_, ?_⟩
  · rw [owners_reran alive, if_neg (wired.fresh root (by simp)), wired.begun_root task]
    simp
  · intro watch mem
    rcases mem_append.mp mem with old | new
    · have apart := wired.fresh watch.id (mem_cons_of_mem _ (mem_map_of_mem old))
      rw [owners_reran alive, if_neg apart, wired.begun_watch task old]
    · rw [mem_singleton.mp new, owners_reran alive, if_pos rfl, wired.begun_self task]
      rfl
  · intro other value holds
    rw [cells_reran alive (by simp), show (graph.begun (some root) (.effect task)).cells = graph.cells from rfl,
      wired.cell_eq other value holds]
    by_cases same : other = cell
    · subst same
      have above : ∀ m ∈ subscribersIn watches other, m < graph.nextId := by
        intro m mem
        obtain ⟨_, there, rfl⟩ := mem_map.mp mem
        exact wired.bound _ (mem_cons_of_mem _ (mem_map_of_mem (mem_filter.mp there).1))
      have joined : subscribersIn (watches ++ [⟨graph.nextId, other, task⟩]) other =
          subscribersIn watches other ++ [graph.nextId] := by simp [subscribersIn]
      rw [if_pos rfl, joined, ← insertSorted_of_lt above]
      rfl
    · have apart : ¬ cell = other := fun h => same h.symm
      simp [same, apart, subscribersIn]
  · rw [map_append, ← cons_append, pairwise_append]
    exact ⟨wired.order, pairwise_singleton .., fun id mem other new => by
      rw [mem_singleton.mp new]
      exact wired.bound id mem⟩
  · rw [reran_eq]
    intro id mem
    rw [map_append, ← cons_append] at mem
    rcases mem_append.mp mem with old | new
    · exact lt_succ_of_lt (wired.bound id old)
    · rw [mem_singleton.mp new]
      exact lt_succ_self _

end

end Wiring

section Reactions

variable [BEq ν] {meaning : Interpretation P σ ν} {graph : Graph P ν} {root : OwnerId} {cleanups : List (P Unit)}
  {values : CellId → Option ν} {watches : List (Watch P)} {level : Nat} {outside : σ}
variable {post : σ → Prop} {id : OwnerId} {slot : Cell ν}

def Answers (meaning : Interpretation P σ ν) (level : Nat) (root id : OwnerId) (cell : CellId) (value : ν) (task : P Unit)
    (outside : σ) (post : σ → Prop) : Prop :=
  ∀ graph, Attends graph root id cell value → (meaning task).Ensures meaning level graph outside
    fun _ graph' outside' => graph' = graph.track cell ∧ post outside'

theorem Answers.mono {root id : OwnerId} {cell : CellId} {value : ν} {task : P Unit} {post wider : σ → Prop}
    (answers : Answers meaning level root id cell value task outside post)
    (weaker : ∀ outside', post outside' → wider outside') :
    Answers meaning level root id cell value task outside wider :=
  fun graph attends => (answers graph attends).mono fun _ _ _ holds => ⟨holds.1, weaker _ holds.2⟩

theorem ensures_clean {o : Owner P ν} (found : graph.owners.get? id = some o) (childless : o.children = [])
    (tidy : o.cleanups = []) :
    Ensures level (fun fuel => clean (Job.run meaning fuel) id) graph outside
      fun _ graph' outside' => graph' = (graph.resetOwner id).release id o.sources o.cells ∧ outside' = outside := by
  unfold clean
  refine .see ?_
  rw [found]
  dsimp only
  rw [childless, tidy]
  exact .alter (fun _ history _ => ⟨_, _, _, history, rfl, rfl, rfl⟩)

theorem ensures_rerun {cell : CellId} {value : ν} {task : P Unit} {sources : List CellId}
    (found : graph.owners.get? id = some { parent := some root, body := some (.effect task), sources })
    (attends : Attends (graph.opened id sources) root id cell value)
    (answers : Answers meaning level root id cell value task outside post) :
    Ensures (level + 2) (fun fuel => Job.run meaning fuel (.rerun id)) graph outside
      fun _ graph' outside' => graph' = graph.reran id sources cell ∧ post outside' := by
  refine .job ?_
  simp only [Job.step, rerun]
  refine .see ?_
  rw [found]
  refine (ensures_clean found rfl rfl).bind ?_
  rintro _ _ _ ⟨rfl, rfl⟩
  refine .note (.inContext ?_)
  refine (answers _ attends).task.mono ?_
  rintro _ _ _ ⟨rfl, holds⟩
  exact ⟨rfl, holds⟩

theorem ensures_flush (none : graph.queue = []) (free : graph.flushing = false) :
    Ensures 1 (fun fuel => flush (Job.run meaning fuel)) graph outside
      fun _ graph' outside' => graph' = graph ∧ outside' = outside := by
  have drained : Ensures 1 (fun fuel => Job.run meaning fuel .drain) { graph with flushing := true } outside
      fun _ graph' outside' => graph' = { graph with flushing := true } ∧ outside' = outside := by
    refine .job ?_
    simp only [Job.step, drain]
    refine .see ?_
    rw [show ({ graph with flushing := true } : Graph P ν).queue = [] from none]
    exact .pure ⟨rfl, rfl⟩
  unfold flush
  refine .see ?_
  rw [free]
  refine .alter (drained.bind ?_)
  rintro _ _ _ ⟨rfl, rfl⟩
  refine fun _ history _ => ⟨_, _, _, history, rfl, ?_, rfl⟩
  rw [← free]

theorem ensures_newReaction {body : Body P ν} {owner : Option OwnerId} {post : Graph P ν → σ → Prop}
    (rest : AtRest graph owner)
    (ran : Ensures (level + 1) (fun fuel => Job.run meaning fuel (.rerun graph.nextId))
      (graph.begun owner body) outside fun _ graph' outside' =>
        graph' = { graph.begun owner body with cells := graph'.cells, owners := graph'.owners } ∧
          post { graph' with batchDepth := graph'.batchDepth - 1 } outside') :
    Ensures (level + 1) (fun fuel => newReaction (Job.run meaning fuel) body) graph outside
      fun id graph' outside' => id = graph.nextId ∧ AtRest graph' owner ∧ graph'.nextId = graph.nextId + 1 ∧
        post graph' outside' := by
  unfold newReaction
  have opened : Ensures (level + 1) (fun _ => changeGraph fun graph => graph.newOwner graph.owner (some body))
      graph outside fun id graph' outside' => id = graph.nextId ∧
        graph' = (graph.newOwner graph.owner (some body)).2 ∧ outside' = outside :=
    fun _ history _ => ⟨_, _, _, history, rfl, rfl, rfl, rfl⟩
  refine opened.bind ?_
  rintro _ _ _ ⟨rfl, rfl, rfl⟩
  rw [rest.owner_eq]
  refine Ensures.bind ?_ fun _ _ _ holds => .pure ⟨rfl, holds⟩
  unfold inBatch
  refine .alter (ran.bind ?_)
  rintro _ after _ ⟨frame, holds⟩
  refine .alter (.see ?_)
  have settled : after.queue = [] ∧ after.flushing = false ∧ after.batchDepth - 1 = 0 ∧ after.owner = owner ∧
      after.observer = none ∧ after.nextId = graph.nextId + 1 := by
    rw [frame]
    exact ⟨rest.queue_eq, rest.flushing_eq, by simp [begun, rest.depth_eq], rest.owner_eq, rest.observer_eq, rfl⟩
  obtain ⟨queue, flushing, depth, owned, observer, nextId⟩ := settled
  rw [show ({ after with batchDepth := after.batchDepth - 1 } : Graph P ν).batchDepth = 0 from depth]
  simp only [eq_self, if_true]
  refine Ensures.bind (Ensures.raise (ensures_flush queue flushing) (by omega)) ?_
  rintro _ _ _ ⟨rfl, rfl⟩
  exact .pure ⟨⟨queue, flushing, depth, owned, observer⟩, nextId, holds⟩

theorem ensures_newEffect {cell : CellId} {value : ν} {task : P Unit} {post : σ → Prop}
    (wired : Wired graph root cleanups values watches) (rest : AtRest graph (some root)) (held : values cell = some value)
    (answers : Answers meaning level root graph.nextId cell value task outside post) :
    (perform (.newEffect task)).Ensures meaning (level + 2) graph outside fun _ graph' outside' =>
      Wired graph' root cleanups values (watches ++ [⟨graph.nextId, cell, task⟩]) ∧ AtRest graph' (some root) ∧
        graph'.nextId = graph.nextId + 1 ∧ post outside' := by
  have begun := ensures_rerun (wired.begun_self task) (wired.begun_attends task held) answers
  have ran : Ensures (level + 2) (fun fuel => Job.run meaning fuel (.rerun graph.nextId)) (graph.begun (some root) (.effect task)) outside
      fun _ graph' outside' => graph' = { graph.begun (some root) (.effect task) with cells := graph'.cells, owners := graph'.owners } ∧
        Wired { graph' with batchDepth := graph'.batchDepth - 1 } root cleanups values
          (watches ++ [⟨graph.nextId, cell, task⟩]) ∧ post outside' := by
    refine begun.mono ?_
    rintro _ _ _ ⟨rfl, holds⟩
    exact ⟨reran_eq .., (wired.joined task held).congr rfl rfl rfl, holds⟩
  have made : Ensures (level + 2) (fun fuel => newReaction (Job.run meaning fuel) (.effect task)) graph outside
      fun id graph' outside' => id = graph.nextId ∧ AtRest graph' (some root) ∧ graph'.nextId = graph.nextId + 1 ∧
        Wired graph' root cleanups values (watches ++ [⟨graph.nextId, cell, task⟩]) ∧ post outside' :=
    ensures_newReaction rest ran
  refine ensures_perform (made.mono ?_)
  rintro _ _ _ ⟨rfl, resting, nextId, joined, holds⟩
  exact ⟨joined, resting, nextId, holds⟩

def AnswersAll (meaning : Interpretation P σ ν) (level : Nat) (root : OwnerId) (values : CellId → Option ν)
    (stage : List (Watch P) → σ → Prop) (pending : List (Watch P)) : Prop :=
  ∀ watch rest outside, watch :: rest <:+ pending → stage (watch :: rest) outside → ∃ value, values watch.cell = some value ∧
    Answers meaning level root watch.id watch.cell value watch.task outside (stage rest)

/-- Tasks that run one after the other, each as a reaction that reads the cell, lead to what is said. -/
def AnswersEach (meaning : Interpretation P σ ν) (level : Nat) (root : OwnerId) (cell : CellId) (value : ν) :
    List (P Unit) → σ → (σ → Prop) → Prop
  | [], outside, post => post outside
  | task :: rest, outside, post => ∀ id, Answers meaning level root id cell value task outside fun outside' =>
      AnswersEach meaning level root cell value rest outside' post

variable {stage : List (Watch P) → σ → Prop} {pending : List (Watch P)}

theorem answersAll_of_each {cell : CellId} {value : ν} (held : values cell = some value)
    (same : ∀ watch ∈ pending, watch.cell = cell) :
    AnswersAll meaning level root values
      (fun watches outside => AnswersEach meaning level root cell value (watches.map Watch.task) outside post) pending := by
  intro watch rest outside later each
  obtain rfl := same watch (later.subset (by simp))
  exact ⟨value, held, each watch.id⟩

section

variable (wired : Wired graph root cleanups values watches)
include wired

theorem ensures_drain (mem : pending ⊆ watches)
    (queue : graph.queue = pending.map Watch.id) (answers : AnswersAll meaning level root values stage pending)
    (start : stage pending outside) :
    Ensures (level + 3 + pending.length) (fun fuel => Job.run meaning fuel .drain) graph outside
      fun _ graph' outside' => Wired graph' root cleanups values watches ∧
        graph' = { graph with queue := [], cells := graph'.cells, owners := graph'.owners } ∧ stage [] outside' := by
  induction pending generalizing graph outside with
  | nil =>
    refine .job ?_
    simp only [Job.step, drain]
    refine .see ?_
    rw [queue]
    refine .pure ⟨wired, ?_, start⟩
    rw [← show graph.queue = [] from queue]
  | cons watch rest ih =>
    obtain ⟨_, held, answer⟩ := answers watch rest outside suffix_rfl start
    have here : watch ∈ watches := mem (by simp)
    refine .job ?_
    simp only [Job.step, drain]
    refine .see ?_
    rw [queue]
    refine .alter ?_
    have waiting : Wired { graph with queue := rest.map Watch.id } root cleanups values watches := wired.congr rfl rfl rfl
    have enough : level + 2 ≤ level + 3 + rest.length := by omega
    refine ((ensures_rerun (waiting.watch_eq watch here) (waiting.attends here held) answer).raise enough).bind ?_
    rintro _ _ _ ⟨rfl, next⟩
    have frame := reran_eq { graph with queue := rest.map Watch.id } watch.id [watch.cell] watch.cell
    have again := ih (waiting.reran here held) (fun other later => mem (mem_cons_of_mem watch later))
      (by rw [frame]) (fun other more outside later => answers other more outside (later.trans (suffix_cons watch rest)))
      next
    refine again.mono ?_
    rintro _ _ _ ⟨still, same, done⟩
    refine ⟨still, ?_, done⟩
    rw [same, frame]

theorem ensures_flush_pending (mem : pending ⊆ watches)
    (queue : graph.queue = pending.map Watch.id) (free : graph.flushing = false)
    (answers : AnswersAll meaning level root values stage pending) (start : stage pending outside) :
    Ensures (level + 3 + pending.length) (fun fuel => flush (Job.run meaning fuel)) graph outside
      fun _ graph' outside' => Wired graph' root cleanups values watches ∧
        graph' = { graph with queue := [], cells := graph'.cells, owners := graph'.owners } ∧ stage [] outside' := by
  unfold flush
  refine .see ?_
  rw [free]
  refine .alter ?_
  have flushing : Wired { graph with flushing := true } root cleanups values watches := wired.congr rfl rfl rfl
  have drained := ensures_drain flushing mem queue answers start
  refine drained.bind ?_
  rintro _ _ _ ⟨still, same, done⟩
  refine fun _ history _ => ⟨_, _, _, history, rfl, still.congr rfl rfl rfl, ?_, done⟩
  rw [same, ← free]

theorem ensures_notify {cell : CellId} {value : ν} {owner : Option OwnerId}
    (rest : AtRest graph owner) (held : values cell = some value)
    (answers : AnswersAll meaning level root values stage (watches.filter (·.cell = cell)))
    (start : stage (watches.filter (·.cell = cell)) outside) :
    Ensures (level + 3 + (watches.filter (·.cell = cell)).length) (fun fuel => notify (Job.run meaning fuel) cell)
      graph outside fun _ graph' outside' =>
        Wired graph' root cleanups values watches ∧ AtRest graph' owner ∧ graph'.nextId = graph.nextId ∧
          stage [] outside' := by
  have found := wired.cell_eq cell value held
  have queued : graph.enqueueSubscribers cell = { graph with queue := subscribersIn watches cell } := by
    have sorted := @foldl_insertSorted _ (pairwise_subscribersIn wired cell) [] (by simp)
    unfold enqueueSubscribers
    rw [found, rest.queue_eq]
    dsimp only
    rw [sorted, nil_append]
  have waiting : Wired (graph.enqueueSubscribers cell) root cleanups values watches := by
    rw [queued]
    exact wired.congr rfl rfl rfl
  have queue : (graph.enqueueSubscribers cell).queue = (watches.filter (·.cell = cell)).map Watch.id := by
    rw [queued]
    rfl
  have free : (graph.enqueueSubscribers cell).flushing = false := by
    rw [queued]
    exact rest.flushing_eq
  have depth : (graph.enqueueSubscribers cell).batchDepth = 0 := by
    rw [queued]
    exact rest.depth_eq
  have alive : graph.cellAlive cell = true := by simp [cellAlive, Table.contains, found]
  unfold notify
  refine .see ?_
  rw [alive]
  refine .alter (.see ?_)
  rw [depth]
  simp only [eq_self, if_true]
  refine (ensures_flush_pending waiting filter_sublist.subset queue free answers start).mono ?_
  rintro _ _ _ ⟨still, same, done⟩
  rw [queued] at same
  refine ⟨still, ?_, ?_, done⟩
  · rw [same]
    exact { rest with queue_eq := rfl }
  · rw [same]

end

variable {cell : CellId} {old value : ν} {owner : Option OwnerId}

theorem ensures_write (wired : Wired graph root cleanups values watches) (rest : AtRest graph owner)
    (held : values cell = some old)
    (answers : AnswersAll meaning level root (update values cell (some value)) stage
      (watches.filter (·.cell = cell)))
    (start : stage (watches.filter (·.cell = cell)) outside) :
    (perform (.write cell value)).Ensures meaning (level + 3 + (watches.filter (·.cell = cell)).length) graph outside
      fun _ graph' outside' => Wired graph' root cleanups (update values cell (some value)) watches ∧
        AtRest graph' owner ∧ graph'.nextId = graph.nextId ∧ stage [] outside' := by
  have stored : Wired (graph.store cell value) root cleanups (update values cell (some value)) watches :=
    wired.store held rfl rfl fun other => get?_modify ..
  refine ensures_perform ?_
  simp only [Run.command, Run.write]
  refine .see ?_
  rw [wired.cell_eq cell old held]
  unfold Run.store
  simp only [bind_assoc]
  exact .alter (.note (ensures_notify stored { rest with } (update_self ..) answers start))

theorem ensures_updateCell {change : ν → ν} (wired : Wired graph root cleanups values watches) (rest : AtRest graph owner)
    (held : values cell = some old)
    (answers : AnswersAll meaning level root (update values cell (some (change old))) stage
      (watches.filter (·.cell = cell)))
    (start : stage (watches.filter (·.cell = cell)) outside) :
    (updateCell cell fun value => Pure.pure (change value)).Ensures meaning
      (level + 3 + (watches.filter (·.cell = cell)).length) graph outside
      fun _ graph' outside' => Wired graph' root cleanups (update values cell (some (change old))) watches ∧
        AtRest graph' owner ∧ graph'.nextId = graph.nextId ∧ stage [] outside' := by
  have stored : Wired (((graph.setInUse cell true).store cell (change old)).setInUse cell false) root cleanups
      (update values cell (some (change old))) watches := by
    refine wired.store held rfl rfl fun other => ?_
    show (((graph.cells.modify cell _).modify cell _).modify cell _).get? other = _
    simp only [get?_modify]
    by_cases same : other = cell
    · subst same
      simp [wired.cell_eq other old held]
    · simp [same]
  refine Reactive.Ensures.bind ?_ fun _ _ _ holds => .pure holds
  unfold Run.updateCell
  refine .see ?_
  rw [wired.cell_eq cell old held]
  unfold Run.store
  simp only [Program.run_pure, bind_assoc, pure_bind]
  exact .alter (.alter (.note (.alter
    (ensures_notify stored { rest with } (update_self ..) answers start))))

omit [BEq ν] in
theorem ensures_read_slot (found : (graph.track cell).cells.get? cell = some slot) (free : slot.inUse = false)
    (held : slot.value = some value) :
    Ensures level (fun _ => Run.read true cell) graph outside
      fun read graph' outside' => read = some value ∧ graph' = graph.track cell ∧ outside' = outside := by
  simp only [Run.read, if_true]
  refine .alter (.see ?_)
  rw [found]
  have noted : Ensures level (fun _ => Run.noteRead cell) (graph.track cell) outside
      fun _ graph' outside' => graph' = graph.track cell ∧ outside' = outside := by
    unfold Run.noteRead
    refine .see ?_
    cases (graph.track cell).observer with
    | none => exact .pure ⟨rfl, rfl⟩
    | some id => exact fun _ history _ => ⟨_, _, _, .read id cell :: history, rfl, rfl, rfl⟩
  simp only [free, held]
  refine noted.bind ?_
  rintro _ _ _ ⟨rfl, rfl⟩
  exact .pure ⟨rfl, rfl, rfl⟩

theorem ensures_get_slot (found : (graph.track cell).cells.get? cell = some slot) (free : slot.inUse = false)
    (held : slot.value = some value) :
    (get true cell : Program P σ ν ν).Ensures meaning level graph outside
      fun read graph' outside' => read = value ∧ graph' = graph.track cell ∧ outside' = outside := by
  have read : (perform (.read true cell) : Program P σ ν _).Ensures meaning level graph outside
      fun read graph' outside' => read = some value ∧ graph' = graph.track cell ∧ outside' = outside :=
    ensures_perform (ensures_read_slot found free held)
  refine read.bind ?_
  rintro _ _ _ ⟨rfl, rfl, rfl⟩
  exact ensures_pure ⟨rfl, rfl, rfl⟩

theorem ensures_get (attends : Attends graph root id cell value) :
    (get true cell : Program P σ ν ν).Ensures meaning level graph outside
      fun read graph' outside' => read = value ∧ graph' = graph.track cell ∧ outside' = outside := by
  obtain ⟨_, found⟩ := attends.track.cell_eq
  exact ensures_get_slot found rfl rfl

def Unread (graph : Graph P ν) (values : CellId → Option ν) : Prop :=
  ∀ cell value, values cell = some value → graph.cells.get? cell = some { value := some value }

theorem ensures_newSignal (unread : Unread graph values) (rest : AtRest graph none) :
    (perform (.newSignal value)).Ensures meaning level graph outside fun cell graph' outside' =>
      cell = graph.nextId ∧ Unread graph' (update values graph.nextId (some value)) ∧ AtRest graph' none ∧
        graph'.nextId = graph.nextId + 1 ∧ outside' = outside := by
  refine ensures_perform fun _ history _ => ⟨_, _, _, history, rfl, rfl, ?_,
    { rest with }, rfl, rfl⟩
  intro cell shown held
  show (insert _ _ _).get? _ = _
  rw [get?_insert]
  by_cases same : cell = graph.nextId
  · subst same
    rw [update_self] at held
    rw [if_pos rfl, ← held]
  · rw [update_of_ne same] at held
    rw [if_neg same, unread cell shown held]

theorem ensures_underRoot {α : Type} {body : Program P σ ν α} (post : α → Graph P ν → σ → Prop)
    (unread : Unread graph values) (rest : AtRest graph none)
    (inner : ∀ graph', Wired graph' graph.nextId [] values [] → AtRest graph' (some graph.nextId) →
      body.Ensures meaning level graph' outside fun result graph'' outside' =>
        AtRest graph'' (some graph.nextId) ∧ post result { graph'' with owner := none, observer := none } outside') :
    (underRoot body).Ensures meaning level graph outside fun result graph' outside' =>
      result.2 = graph.nextId ∧ AtRest graph' none ∧ post result.1 graph' outside' := by
  have opened : (perform .newRoot : Program P σ ν _).Ensures meaning level graph outside
      fun root graph' outside' => root = graph.nextId ∧ graph' = (graph.newOwner none none).2 ∧ outside' = outside :=
    ensures_perform fun _ history _ => ⟨_, _, _, history, rfl, rfl, rfl, rfl⟩
  refine opened.bind ?_
  rintro _ _ outside ⟨rfl, rfl, rfl⟩
  have wired : Wired { (graph.newOwner none none).2 with owner := some graph.nextId, observer := none } graph.nextId []
      values [] := by
    refine ⟨?_, by simp, unread, by simp, by simp [newOwner]⟩
    show (insert _ _ _).get? _ = _
    rw [get?_insert, if_pos rfl]
    rfl
  have ran : (ownedBy graph.nextId body).Ensures meaning level (graph.newOwner none none).2 outside
      fun result graph' outside' => AtRest graph' none ∧ post result graph' outside' := by
    refine ensures_ownedBy ((inner _ wired { rest with owner_eq := rfl, observer_eq := rfl }).mono ?_)
    rintro result graph' outside' ⟨resting, holds⟩
    refine ⟨⟨resting.1, resting.2, resting.3, rest.4, rest.5⟩, ?_⟩
    show post result { graph' with owner := graph.owner, observer := graph.observer } outside'
    rw [rest.owner_eq, rest.observer_eq]
    exact holds
  refine ran.bind ?_
  rintro _ _ _ ⟨resting, holds⟩
  exact ensures_pure ⟨rfl, resting, holds⟩

theorem ensures_onDispose {task : P Unit} (wired : Wired graph root cleanups values watches)
    (rest : AtRest graph (some root)) :
    (perform (.onDispose task)).Ensures meaning level graph outside fun _ graph' outside' =>
      Wired graph' root (cleanups ++ [task]) values watches ∧ AtRest graph' (some root) ∧
        graph'.nextId = graph.nextId ∧ outside' = outside := by
  have added : graph.addCleanup task =
      { graph with owners := graph.owners.modify root fun o => { o with cleanups := o.cleanups ++ [task] } } := by
    rw [addCleanup, rest.owner_eq]
  refine ensures_perform fun _ history _ => ⟨(), graph.addCleanup task, outside, history, rfl, ?_⟩
  rw [added]
  refine ⟨⟨?_, ?_, wired.cell_eq, wired.order, wired.bound⟩, { rest with }, rfl, rfl⟩
  · rw [get?_modify, if_pos rfl, wired.root_eq]
    rfl
  · intro watch mem
    rw [get?_modify, if_neg (wired.root_ne mem).symm, wired.watch_eq watch mem]

section Disposal

variable {watch : Watch P}

/-- What is left while a root is being disposed: some reactions, and nobody else reads the cells. -/
structure Ending (graph : Graph P ν) (root : OwnerId) (owner : Option OwnerId) (values : CellId → Option ν)
    (watches : List (Watch P)) : Prop where
  watch_eq : ∀ watch ∈ watches, graph.owners.get? watch.id =
    some { parent := some root, body := some (.effect watch.task), sources := [watch.cell] }
  cell_eq : ∀ cell value, values cell = some value →
    graph.cells.get? cell = some { value := some value, subscribers := subscribersIn watches cell }
  once : (watches.map Watch.id).Nodup
  apart : ∀ watch ∈ watches, watch.id ≠ root
  rest : AtRest graph owner

theorem subscribersIn_filter (fresh : watch.id ∉ watches.map Watch.id) (cell : CellId) :
    (subscribersIn (watches ++ [watch]) cell).filter (· != watch.id) = subscribersIn watches cell := by
  have kept : (subscribersIn watches cell).filter (· != watch.id) = subscribersIn watches cell := by
    refine filter_eq_self.mpr fun id mem => ?_
    obtain ⟨other, there, rfl⟩ := mem_map.mp mem
    have same : other.id ≠ watch.id := fun h => fresh (h ▸ mem_map_of_mem (mem_filter.mp there).1)
    simpa using same
  have last : ((([watch] : List (Watch P)).filter (·.cell = cell)).map Watch.id).filter (· != watch.id) = [] := by
    by_cases same : watch.cell = cell <;> simp [same]
  rw [subscribersIn, filter_append, map_append, filter_append, last, append_nil]
  exact kept

omit [BEq ν] in
theorem Graph.owners_eraseOwner {id m : OwnerId} (above : (graph.owners.get? id).bind Owner.parent = some root)
    (apart : m ≠ root) (differs : m ≠ id) : (graph.eraseOwner id).owners.get? m = graph.owners.get? m := by
  have other : ¬ some root = some m := fun same => apart (Option.some.inj same).symm
  simp [owners_erased, above, differs, other]

theorem ensures_dispose_watch (ending : Ending graph root owner values (watches ++ [watch])) :
    Ensures 1 (fun fuel => Job.run meaning fuel (.dispose watch.id)) graph outside
      fun _ graph' outside' => Ending graph' root owner values watches ∧ outside' = outside := by
  have found := ending.watch_eq watch (by simp)
  have once := ending.once
  rw [map_append, nodup_append] at once
  have fresh : watch.id ∉ watches.map Watch.id := fun mem => once.2.2 _ mem _ (by simp) rfl
  refine .job ?_
  simp only [Job.step, dispose]
  refine (ensures_clean found rfl rfl).bind ?_
  rintro _ _ _ ⟨rfl, rfl⟩
  refine fun _ history _ => ⟨_, _, _, history, rfl, ?_, rfl⟩
  have self : (((graph.resetOwner watch.id).release watch.id [watch.cell] []).owners.get? watch.id).bind Owner.parent =
      some root := by
    show ((Table.modify _ _ _).get? _).bind _ = _
    rw [get?_modify, if_pos rfl, found]
    rfl
  refine ⟨fun other mem => ?_, fun cell value held => ?_, once.1, fun other mem => ending.apart other (by simp [mem]),
    ?_⟩
  · have differs : other.id ≠ watch.id := fun same => fresh (same ▸ mem_map_of_mem mem)
    have apart := ending.apart other (by simp [mem])
    refine (owners_eraseOwner self apart differs).trans ?_
    show (Table.modify _ _ _).get? _ = _
    rw [get?_modify, if_neg differs, ending.watch_eq other (by simp [mem])]
  · have opened := cells_opened graph watch.id [watch.cell] cell
    show (graph.opened watch.id [watch.cell]).cells.get? cell = _
    rw [opened, ending.cell_eq cell value held]
    have filtered := subscribersIn_filter fresh cell
    split
    · simp only [Option.map_some, filtered]
    · rename_i other
      have same : subscribersIn (watches ++ [watch]) cell = subscribersIn watches cell := by
        have apart : ¬ watch.cell = cell := fun h => other (by simp [h])
        simp [subscribersIn, apart]
      rw [same]
  · have empty := ending.rest.queue_eq
    exact ⟨by simp [eraseOwner, release, resetOwner, empty], ending.rest.2, ending.rest.3, ending.rest.4,
      ending.rest.5⟩

theorem ensures_dispose_watches (ending : Ending graph root owner values watches) :
    Ensures 1 (fun fuel => (watches.map Watch.id).reverse.forM fun child => Job.run meaning fuel (.dispose child)) graph
      outside fun _ graph' outside' => Ending graph' root owner values [] ∧ outside' = outside := by
  induction watches using reverseRecOn generalizing graph outside with
  | nil => exact .pure ⟨ending, rfl⟩
  | append_singleton _ _ ih =>
    simp only [map_append, map_cons, map_nil, reverse_append, reverse_singleton,
      singleton_append]
    refine (ensures_dispose_watch ending).bind ?_
    rintro _ _ _ ⟨left, rfl⟩
    exact ih left

theorem ensures_dispose {task : P Unit} {post : σ → Prop} (wired : Wired graph root [task] values watches)
    (rest : AtRest graph owner)
    (cleanup : ∀ graph, (meaning task).Ensures meaning level graph outside
      fun _ graph' outside' => graph' = graph ∧ post outside') :
    (perform (.dispose root)).Ensures meaning (level + 1) graph outside fun _ graph' outside' =>
      Ending graph' root owner values [] ∧ graph'.owners.get? root = none ∧ post outside' := by
  have start : Ending (graph.resetOwner root) root owner values watches := by
    refine ⟨fun watch mem => ?_, wired.cell_eq, (pairwise_cons.mp wired.order).2.imp ne_of_lt,
      fun watch mem => (wired.root_ne mem).symm, { rest with }⟩
    show (Table.modify _ _ _).get? _ = _
    rw [get?_modify, if_neg (wired.root_ne mem).symm, wired.watch_eq watch mem]
  refine ensures_perform ?_
  simp only [Run.command, dispose, clean, bind_assoc]
  refine .see ?_
  rw [wired.root_eq]
  simp only [bind_assoc]
  refine .alter ?_
  refine ((ensures_dispose_watches start).raise (le_add_left 1 level)).bind ?_
  rintro _ left _ ⟨ended, rfl⟩
  have cleaned : Ensures (level + 1) (fun fuel => [task].forM fun task => Job.run meaning fuel (.perform task)) left _
      fun _ graph' outside' => graph' = left ∧ post outside' :=
    (cleanup left).task.bind fun _ _ _ holds => .pure holds
  refine cleaned.bind ?_
  rintro _ _ _ ⟨rfl, holds⟩
  refine fun _ history _ => ⟨_, _, _, history, rfl, ⟨by simp, ended.cell_eq, by simp, by simp, ?_⟩, ?_, holds⟩
  · have empty := ended.rest.queue_eq
    exact ⟨by simp [eraseOwner, release, empty], ended.rest.2, ended.rest.3, ended.rest.4, ended.rest.5⟩
  · exact get?_eraseOwner_self _ root

theorem ensures_dispose_gone (ending : Ending graph root owner values []) (gone : graph.owners.get? root = none) :
    (perform (.dispose root)).Ensures meaning level graph outside fun _ graph' outside' =>
      Ending graph' root owner values [] ∧ graph'.owners.get? root = none ∧ outside' = outside := by
  refine ensures_perform ?_
  simp only [Run.command, dispose, clean, bind_assoc]
  refine .see ?_
  rw [gone]
  refine fun _ history _ => ⟨_, _, _, history, rfl, ⟨by simp, ending.cell_eq, by simp, by simp, ?_⟩, ?_, rfl⟩
  · have empty := ending.rest.queue_eq
    exact ⟨by simp [eraseOwner, empty], ending.rest.2, ending.rest.3, ending.rest.4, ending.rest.5⟩
  · exact get?_eraseOwner_self _ root

theorem ensures_write_quiet (ending : Ending graph root owner values []) (held : values cell = some old)
    (gone : graph.owners.get? root = none) :
    (perform (.write cell value)).Ensures meaning (level + 1) graph outside fun _ graph' outside' =>
      Ending graph' root owner (update values cell (some value)) [] ∧ graph'.owners.get? root = none ∧
        outside' = outside := by
  have found := ending.cell_eq cell old held
  have stored : Ending (graph.store cell value) root owner (update values cell (some value)) [] := by
    refine ⟨by simp, fun other shown holds => ?_, by simp, by simp, ⟨ending.rest.1, ending.rest.2, ending.rest.3,
      ending.rest.4, ending.rest.5⟩⟩
    show (Table.modify _ _ _).get? _ = _
    rw [get?_modify]
    by_cases same : other = cell
    · subst same
      rw [update_self] at holds
      rw [if_pos rfl, found, ← holds]
      rfl
    · rw [update_of_ne same] at holds
      rw [if_neg same, ending.cell_eq other shown holds]
  have there := stored.cell_eq cell value (update_self ..)
  have alive : (graph.store cell value).cellAlive cell = true := by simp [cellAlive, Table.contains, there]
  have queued : (graph.store cell value).enqueueSubscribers cell = graph.store cell value := by
    unfold enqueueSubscribers
    rw [there]
    rfl
  refine ensures_perform ?_
  simp only [Run.command, Run.write]
  refine .see ?_
  rw [found]
  unfold Run.store Run.notify
  simp only [bind_assoc]
  refine .alter (.note (.see ?_))
  rw [alive]
  refine .alter (.see ?_)
  rw [queued, stored.rest.depth_eq]
  simp only [eq_self, if_true]
  refine (Ensures.raise (ensures_flush stored.rest.queue_eq stored.rest.flushing_eq) (le_add_left 1 level)).mono ?_
  rintro _ _ _ ⟨rfl, rfl⟩
  exact ⟨stored, gone, rfl⟩

end Disposal

end Reactions

end LiveMarkup.Reactive
