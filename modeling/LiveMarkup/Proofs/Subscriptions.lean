import LiveMarkup.Proofs.Readings

/-!
Subscriptions while reactions run. `Layout` is what does not change meanwhile: which cells there are and what each owner
runs. `Woven` says that cells and reactions agree about who has read what, and that whoever has read anything made
nothing and reads only what was made before it. Every step of a reaction keeps it: forgetting what was read, reading, and
putting a value.
-/

namespace LiveMarkup.Reactive
open Option Reactive.Graph Table

variable {P : Type → Type} {ν : Type}

/-- Which cells there are, and for each owner that is there what it runs, if it runs anything. -/
structure Layout (P : Type → Type) (ν : Type) where
  cells : CellId → Bool
  bodies : OwnerId → Option (Option (Body P ν))

/-- A cell is computed by a task, whose reaction was made right after it. -/
def Layout.Computes (layout : Layout P ν) (cell : CellId) (task : P ν) : Prop :=
  layout.bodies (cell + 1) = some (some (.computed cell task))

theorem Layout.Computes.task_eq {layout : Layout P ν} {cell : CellId} {task other : P ν}
    (one : layout.Computes cell task) (two : layout.Computes cell other) : task = other := by
  simpa using one.symm.trans two

/-- A cell, and the reaction that computes it if there is one, were made before an owner. -/
def Layout.Before (layout : Layout P ν) (cell : CellId) (id : OwnerId) : Prop :=
  cell < id ∧ ∀ task, layout.Computes cell task → cell + 1 < id

namespace Graph

variable {values : CellId → ν}

def layout (graph : Graph P ν) : Layout P ν := ⟨graph.cellAlive, fun id => (graph.owners.get? id).map Owner.body⟩

def sourcesOf (graph : Graph P ν) (id : OwnerId) : List CellId := ((graph.owners.get? id).map Owner.sources).getD []

variable {graph next : Graph P ν}

theorem layout_congr (cells : ∀ c, next.cells.get? c = graph.cells.get? c) (owners : next.owners = graph.owners) :
    next.layout = graph.layout := by
  unfold layout cellAlive contains
  rw [owners, funext cells]

theorem sourcesOf_congr (owners : next.owners = graph.owners) (id : OwnerId) : next.sourcesOf id = graph.sourcesOf id := by
  unfold sourcesOf
  rw [owners]

theorem Shows.congr (shows : graph.Shows values) (cells : ∀ c, next.cells.get? c = graph.cells.get? c) : next.Shows values :=
  fun c slot found => shows c slot ((cells c).symm.trans found)

theorem owners_track (graph : Graph P ν) (cell : CellId) (id : OwnerId) : (graph.track cell).owners.get? id =
      if graph.observer = some id ∧ graph.cellAlive cell = true then (graph.owners.get? id).map fun o =>
        { o with sources := if o.sources.contains cell then o.sources else cell :: o.sources }
      else graph.owners.get? id := by
  unfold track
  cases graph.observer with
  | none => simp
  | some observer =>
    dsimp only
    split
    · rename_i alive
      show (modify _ _ _).get? id = _
      rw [get?_modify]
      by_cases same : id = observer
      · simp [same, alive]
      · have apart : ¬ observer = id := fun h => same h.symm
        simp [same, apart]
    · rename_i gone
      simp [gone]

theorem layout_track (graph : Graph P ν) (cell : CellId) : (graph.track cell).layout = graph.layout := by
  unfold layout
  congr 1
  · exact funext (graph.cellAlive_track cell)
  · funext id
    rw [owners_track]
    split
    · rw [map_map]
      rfl
    · rfl

theorem layout_trackAll (graph : Graph P ν) (cells : List CellId) : (graph.trackAll cells).layout = graph.layout := by
  induction cells generalizing graph with
  | nil => rfl
  | cons cell _ ih => exact (ih (graph.track cell)).trans (graph.layout_track cell)

theorem ownerAlive_eq (graph : Graph P ν) (id : OwnerId) : graph.ownerAlive id = (graph.layout.bodies id).isSome := by
  simp [ownerAlive, contains, layout]

theorem mem_sourcesOf_track {observer : OwnerId} {cell : CellId} (watching : graph.observer = some observer)
    (there : (graph.owners.get? observer).isSome) (alive : graph.cellAlive cell = true) (id : OwnerId) (c : CellId) :
    c ∈ (graph.track cell).sourcesOf id ↔ c ∈ graph.sourcesOf id ∨ id = observer ∧ c = cell := by
  unfold sourcesOf
  rw [owners_track, watching]
  by_cases same : id = observer
  · subst same
    obtain ⟨o, found⟩ := isSome_iff_exists.mp there
    rw [if_pos ⟨rfl, alive⟩, found]
    simp only [map_some, getD_some, true_and]
    split
    · rename_i mem
      have mem : cell ∈ o.sources := by simpa using mem
      exact ⟨.inl, fun either => either.elim (fun old => old) fun equal => equal ▸ mem⟩
    · rw [List.mem_cons]
      exact Or.comm
  · have apart : ¬ observer = id := fun h => same h.symm
    simp [same, apart]

theorem layout_opened (graph : Graph P ν) (id : OwnerId) (sources : List CellId) :
    (graph.opened id sources).layout = graph.layout := by
  unfold layout cellAlive contains
  congr 1
  · funext c
    rw [cells_opened]
    split <;> simp
  · funext m
    rw [owners_opened]
    split
    · rw [map_map]
      rfl
    · rfl

theorem sourcesOf_opened (graph : Graph P ν) (id : OwnerId) (sources : List CellId) (m : OwnerId) :
    (graph.opened id sources).sourcesOf m = if m = id then [] else graph.sourcesOf m := by
  unfold sourcesOf
  rw [owners_opened]
  split
  · cases graph.owners.get? m <;> rfl
  · rfl

theorem Shows.opened (shows : graph.Shows values) (id : OwnerId) (sources : List CellId) :
    (graph.opened id sources).Shows values := by
  intro cell slot found
  rw [cells_opened] at found
  split at found
  · obtain ⟨old, there, rfl⟩ := map_eq_some_iff.mp found
    exact shows cell old there
  · exact shows cell slot found

theorem cells_put (graph : Graph P ν) (cell : CellId) (value : ν) (c : CellId) : (graph.put cell value).cells.get? c =
      if c = cell then (graph.cells.get? c).map ({ · with value := some value }) else graph.cells.get? c := by
  rw [put_eq]
  exact get?_modify ..

theorem owners_put (graph : Graph P ν) (cell : CellId) (value : ν) : (graph.put cell value).owners = graph.owners := by
  rw [put_eq]

theorem layout_put (graph : Graph P ν) (cell : CellId) (value : ν) : (graph.put cell value).layout = graph.layout := by
  unfold layout cellAlive contains
  rw [owners_put]
  congr 1
  funext c
  rw [cells_put]
  split <;> simp

theorem Shows.put (shows : graph.Shows values) (cell : CellId) (value : ν) :
    (graph.put cell value).Shows (Function.update values cell value) := by
  intro c slot found
  rw [cells_put] at found
  by_cases same : c = cell
  · subst same
    rw [if_pos rfl] at found
    obtain ⟨old, there, rfl⟩ := map_eq_some_iff.mp found
    exact ⟨(shows c old there).1, by simp⟩
  · rw [if_neg same] at found
    rw [Function.update_of_ne same]
    exact shows c slot found

theorem mem_queue_put {cell : CellId} {slot : Cell ν} (found : graph.cells.get? cell = some slot) (value : ν)
    (id : OwnerId) : id ∈ (graph.put cell value).queue ↔ id ∈ graph.queue ∨ id ∈ slot.subscribers := by
  have there : (graph.store cell value).cells.get? cell = some { slot with value := some value } := by
    show (modify _ _ _).get? _ = _
    rw [get?_modify, if_pos rfl, found]
    rfl
  unfold put enqueueSubscribers
  rw [there]
  show id ∈ slot.subscribers.foldl (fun queue id => insertSorted id queue) graph.queue ↔ _
  rw [mem_foldl_insertSorted, or_comm]

end Graph

/-- Cells and reactions agree about who has read what. Whoever has read anything is one of the given reactions, has made
nothing, and has read only what was made before it. -/
structure Woven (layout : Layout P ν) (reacts : OwnerId → Prop) (values : CellId → ν) (graph : Graph P ν) : Prop where
  layout_eq : graph.layout = layout
  shows : graph.Shows values
  sorted : ∀ cell slot, graph.cells.get? cell = some slot → slot.subscribers.Pairwise (· < ·)
  agree : ∀ cell slot, graph.cells.get? cell = some slot → ∀ id, id ∈ slot.subscribers ↔ cell ∈ graph.sourcesOf id
  reactive : ∀ id cell, cell ∈ graph.sourcesOf id → reacts id ∧ layout.Before cell id
  bare : ∀ id o, reacts id → graph.owners.get? id = some o → o.children = [] ∧ o.cleanups = [] ∧ o.cells = []

namespace Woven

variable {layout : Layout P ν} {reacts : OwnerId → Prop} {values : CellId → ν} {graph next : Graph P ν}
  {id : OwnerId} {cell : CellId}

section

variable (woven : Woven layout reacts values graph)
include woven

theorem congr (cells : ∀ c, next.cells.get? c = graph.cells.get? c)
    (owners : next.owners = graph.owners) : Woven layout reacts values next where
  layout_eq := (layout_congr cells owners).trans woven.layout_eq
  shows := woven.shows.congr cells
  sorted c slot found := woven.sorted c slot ((cells c).symm.trans found)
  agree c slot found m := by
    rw [sourcesOf_congr owners]
    exact woven.agree c slot ((cells c).symm.trans found) m
  reactive m c mem := woven.reactive m c (sourcesOf_congr owners m ▸ mem)
  bare := owners ▸ woven.bare

theorem cellAlive (c : CellId) : graph.cellAlive c = layout.cells c := by
  rw [← woven.layout_eq]
  rfl

theorem bodies (m : OwnerId) : (graph.owners.get? m).map Owner.body = layout.bodies m := by
  rw [← woven.layout_eq]
  rfl

theorem ownerAlive (m : OwnerId) : graph.ownerAlive m = (layout.bodies m).isSome := by
  rw [ownerAlive_eq, woven.layout_eq]

theorem opened (id : OwnerId) : Woven layout reacts values (graph.opened id (graph.sourcesOf id)) where
  layout_eq := (graph.layout_opened id _).trans woven.layout_eq
  shows := woven.shows.opened id _
  sorted c slot found := by
    rw [cells_opened] at found
    split at found
    · obtain ⟨old, there, rfl⟩ := map_eq_some_iff.mp found
      exact (woven.sorted c old there).filter _
    · exact woven.sorted c slot found
  agree c slot found m := by
    rw [sourcesOf_opened]
    rw [cells_opened] at found
    split at found
    · obtain ⟨old, there, rfl⟩ := map_eq_some_iff.mp found
      by_cases same : m = id <;> simp [same, woven.agree c old there]
    · rename_i unread
      rw [woven.agree c slot found]
      by_cases same : m = id
      · subst same
        simp [unread]
      · simp [same]
  reactive m c mem := by
    rw [sourcesOf_opened] at mem
    split at mem
    · simp at mem
    · exact woven.reactive m c mem
  bare m o acting found := by
    rw [owners_opened] at found
    split at found
    · obtain ⟨_, _, rfl⟩ := map_eq_some_iff.mp found
      exact ⟨rfl, rfl, rfl⟩
    · exact woven.bare m o acting found

theorem track (watching : graph.observer = some id) (acts : reacts id)
    (there : (graph.owners.get? id).isSome) (alive : layout.cells cell = true) (before : layout.Before cell id) :
    Woven layout reacts values (graph.track cell) := by
  have mem := fun m c => mem_sourcesOf_track watching there ((woven.cellAlive cell).trans alive) m c
  refine ⟨(graph.layout_track cell).trans woven.layout_eq, woven.shows.track cell, ?_, ?_, ?_, ?_⟩
  · intro c slot found
    rw [cells_track, watching] at found
    split at found
    · obtain ⟨old, there, rfl⟩ := map_eq_some_iff.mp found
      exact pairwise_insertSorted (woven.sorted c old there)
    · exact woven.sorted c slot found
  · intro c slot found m
    rw [mem]
    rw [cells_track, watching] at found
    split at found
    · rename_i same
      subst same
      obtain ⟨old, there, rfl⟩ := map_eq_some_iff.mp found
      rw [mem_insertSorted, woven.agree c old there, or_comm]
      simp
    · rename_i other
      rw [woven.agree c slot found]
      simp [other]
  · intro m c inside
    rcases (mem m c).mp inside with old | ⟨rfl, rfl⟩
    · exact woven.reactive m c old
    · exact ⟨acts, before⟩
  · intro m o acting found
    rw [owners_track] at found
    split at found
    · obtain ⟨old, there, rfl⟩ := map_eq_some_iff.mp found
      exact woven.bare m old acting there
    · exact woven.bare m o acting found

theorem put (cell : CellId) (value : ν) :
    Woven layout reacts (Function.update values cell value) (graph.put cell value) := by
  have owners := graph.owners_put cell value
  refine ⟨(graph.layout_put cell value).trans woven.layout_eq, woven.shows.put cell value, ?_, ?_, ?_, owners ▸ woven.bare⟩
  · intro c slot found
    rw [cells_put] at found
    split at found
    · obtain ⟨old, there, rfl⟩ := map_eq_some_iff.mp found
      exact woven.sorted c old there
    · exact woven.sorted c slot found
  · intro c slot found m
    rw [sourcesOf_congr owners]
    rw [cells_put] at found
    split at found
    · obtain ⟨old, there, rfl⟩ := map_eq_some_iff.mp found
      exact woven.agree c old there m
    · exact woven.agree c slot found m
  · intro m c mem
    rw [sourcesOf_congr owners] at mem
    exact woven.reactive m c mem

end

end Woven

section Following

variable {layout : Layout P ν} {reacts : OwnerId → Prop} {values : CellId → ν} {graph : Graph P ν} {id : OwnerId}
  {cells : List CellId}

theorem Woven.trackAll (woven : Woven layout reacts values graph) (watching : graph.observer = some id) (acts : reacts id)
    (there : (graph.owners.get? id).isSome) (before : ∀ c ∈ cells, layout.cells c = true ∧ layout.Before c id) :
    Woven layout reacts values (graph.trackAll cells) ∧ ∀ m c,
      c ∈ (graph.trackAll cells).sourcesOf m ↔ c ∈ graph.sourcesOf m ∨ m = id ∧ c ∈ cells := by
  induction cells generalizing graph with
  | nil => exact ⟨woven, fun m c => by simp [trackAll]⟩
  | cons cell _ ih =>
    obtain ⟨alive, older⟩ := before cell (by simp)
    have tracked := woven.track watching acts there alive older
    have watching' : (graph.track cell).observer = some id := by rw [track_eq]; exact watching
    have there' : ((graph.track cell).owners.get? id).isSome := by
      rw [owners_track]
      split <;> simp [there]
    obtain ⟨woven', mem⟩ := ih tracked watching' there' fun c inside => before c (List.mem_cons_of_mem cell inside)
    refine ⟨woven', fun m c => (mem m c).trans ?_⟩
    rw [mem_sourcesOf_track watching there ((woven.cellAlive cell).trans alive), List.mem_cons]
    tauto

theorem Graph.trackAll_eq (graph : Graph P ν) (cells : List CellId) : graph.trackAll cells =
    { graph with cells := (graph.trackAll cells).cells, owners := (graph.trackAll cells).owners } := by
  induction cells generalizing graph with
  | nil => rfl
  | cons cell cells ih =>
    have first := graph.track_eq cell
    have rest := ih (graph.track cell)
    rw [show graph.trackAll (cell :: cells) = (graph.track cell).trackAll cells from rfl, rest, first]

def Graph.followed (graph : Graph P ν) (id : OwnerId) (cells : List CellId) : Graph P ν :=
  { (graph.opened id (graph.sourcesOf id)).trackAll cells with owner := graph.owner, observer := graph.observer }

theorem Graph.followed_eq (graph : Graph P ν) (id : OwnerId) (cells : List CellId) : graph.followed id cells =
    { graph with cells := (graph.followed id cells).cells, owners := (graph.followed id cells).owners } := by
  unfold followed
  rw [trackAll_eq]
  rfl

/-- An owner, but for what it is subscribed to. -/
def Owner.still (o : Owner P ν) : Owner P ν := { o with sources := [] }

theorem Graph.still_trackAll (graph : Graph P ν) (cells : List CellId) (m : OwnerId) :
    ((graph.trackAll cells).owners.get? m).map Owner.still = (graph.owners.get? m).map Owner.still := by
  induction cells generalizing graph with
  | nil => rfl
  | cons cell _ ih =>
    refine (ih (graph.track cell)).trans ?_
    rw [owners_track]
    split
    · rw [map_map]
      rfl
    · rfl

theorem Graph.still_followed (graph : Graph P ν) (cells : List CellId)
    (bare : ∀ o, graph.owners.get? id = some o → o.children = [] ∧ o.cleanups = [] ∧ o.cells = []) (m : OwnerId) :
    ((graph.followed id cells).owners.get? m).map Owner.still = (graph.owners.get? m).map Owner.still := by
  refine (still_trackAll _ cells m).trans ?_
  rw [owners_opened]
  split
  · rename_i here
    subst here
    cases found : graph.owners.get? m with
    | none => rfl
    | some o =>
      obtain ⟨children, cleanups, cells⟩ := bare o found
      simp [Owner.still, children, cleanups, cells]
  · rfl

theorem Woven.followed (woven : Woven layout reacts values graph) (acts : reacts id) (there : (graph.owners.get? id).isSome)
    (before : ∀ c ∈ cells, layout.cells c = true ∧ layout.Before c id) :
    Woven layout reacts values (graph.followed id cells) ∧ ∀ m c,
      c ∈ (graph.followed id cells).sourcesOf m ↔ if m = id then c ∈ cells else c ∈ graph.sourcesOf m := by
  have open' : ((graph.opened id (graph.sourcesOf id)).owners.get? id).isSome := by
    rw [owners_opened, if_pos rfl]
    simpa using there
  obtain ⟨woven', mem⟩ := (woven.opened id).trackAll rfl acts open' before
  refine ⟨woven'.congr (fun _ => rfl) rfl, fun m c => (mem m c).trans ?_⟩
  rw [sourcesOf_opened]
  by_cases same : m = id <;> simp [same]

end Following

end LiveMarkup.Reactive
