import LiveMarkup.Proofs.Subscriptions

/-!
Reactions that bring a graph up to date. Signals are written; computed cells, whose tasks only read, follow them; and
watchers change what is outside, each without spoiling what another one has made right. `Underway` holds while reactions
run: whoever is not due has run on the values at hand. A reaction that runs can make due only those made after it, so that a
round of reactions comes to its end, and then nobody is due.
-/

namespace LiveMarkup.Reactive
open List Function Reactive.Graph Job Run Nat

variable {P : Type → Type} {σ ν : Type} [BEq ν] {other : Layout P ν} {old : ν}

section Plainness

variable (meaning : Interpretation P σ ν) (holds : σ → Prop) (fits : CellId → ν → Prop) (layout : Layout P ν)

/-- A computed cell has the value that its task gives, or one that equals it. -/
def UpToDate (values : CellId → ν) (cell : CellId) (task : P ν) : Prop :=
  ∃ result cells, Reads meaning holds values (meaning task) result cells ∧
    (values cell = result ∨ (values cell == result) = true)

def Layout.IsSignal (cell : CellId) : Prop := ∀ task, ¬ layout.Computes cell task

/-- Signals have values that fit them, and what was computed before some owner was made is up to date. -/
structure Agrees (bound : OwnerId) (values : CellId → ν) : Prop where
  fit : ∀ cell, layout.cells cell = true → layout.IsSignal cell → fits cell (values cell)
  current : ∀ cell task, layout.Computes cell task → cell + 1 < bound → UpToDate meaning holds values cell task

/-- What is computed is computed by reading, from cells that are there and were made before. -/
structure Layout.Plain : Prop where
  placed : ∀ id cell task, layout.bodies id = some (some (.computed cell task)) → id = cell + 1 ∧ layout.cells cell = true
  reads : ∀ cell task values, layout.Computes cell task → Agrees meaning holds fits layout (cell + 1) values →
    ∃ result cells, Reads meaning holds values (meaning task) result cells ∧
      ∀ c ∈ cells, c < cell ∧ layout.cells c = true

variable {meaning holds fits layout}

theorem Agrees.congr {bound : OwnerId} {values : CellId → ν}
    (agrees : Agrees meaning holds fits layout bound values) (cells : layout.cells = other.cells)
    (computes : ∀ cell task, layout.Computes cell task ↔ other.Computes cell task) :
    Agrees meaning holds fits other bound values where
  fit cell alive signal := agrees.fit cell (cells ▸ alive) fun task runs => signal task ((computes cell task).mp runs)
  current cell task runs := agrees.current cell task ((computes cell task).mpr runs)

end Plainness

/-- A reaction that changes what is outside, and what is right there for the values of cells. -/
structure Watcher (P : Type → Type) (σ ν : Type) where
  id : OwnerId
  task : P Unit
  serves : (CellId → ν) → σ → Prop

structure Scene (P : Type → Type) (σ ν : Type) where
  layout : Layout P ν
  /-- What the values of signals are like. -/
  fits : CellId → ν → Prop
  /-- On which states outside the graph reading relies. -/
  holds : σ → Prop
  watchers : Set (Watcher P σ ν)
  /-- What the watchers keep. -/
  stays : σ → Prop
  /-- What a watcher may make of a state outside. -/
  changes : σ → σ → Prop

/-- A graph has what there is in a layout, and maybe more. -/
structure Graph.Has (graph : Graph P ν) (layout : Layout P ν) : Prop where
  cells : ∀ c, layout.cells c = true → graph.cellAlive c = true
  owners : ∀ m, (layout.bodies m).isSome = true → graph.ownerAlive m = true

namespace Scene

variable (meaning : Interpretation P σ ν) (scene : Scene P σ ν)

def Reacts (id : OwnerId) : Prop :=
  (∃ cell task, scene.layout.bodies id = some (some (.computed cell task))) ∨ ∃ w ∈ scene.watchers, w.id = id

/-- What is kept and what is right outside stays so. -/
structure Bears (outside outside' : σ) : Prop where
  stays : scene.stays outside → scene.stays outside'
  serves : ∀ w ∈ scene.watchers, ∀ values, w.serves values outside → w.serves values outside'

/-- When a watcher runs, it reads cells that are there and makes what is outside right for their values. What others have
made right stays so. -/
def Attentive (w : Watcher P σ ν) : Prop :=
  ∀ values outside, scene.stays outside → Agrees meaning scene.holds scene.fits scene.layout w.id values →
    ∃ cells outside', (∀ c ∈ cells, c < w.id ∧ scene.layout.cells c = true) ∧ scene.stays outside' ∧
      scene.changes outside outside' ∧ (∀ other : CellId → ν, (∀ c ∈ cells, other c = values c) → w.serves other outside') ∧
      (∀ v ∈ scene.watchers, v.id ≠ w.id → ∀ other, v.serves other outside → v.serves other outside') ∧
      ∀ graph : Graph P ν, graph.Has scene.layout → graph.Shows values →
        ∃ level, (meaning w.task).Ensures meaning level graph outside fun _ graph' after =>
          graph' = graph.trackAll cells ∧ after = outside'

structure Sound : Prop where
  steady : ∀ outside, scene.stays outside → scene.holds outside
  plain : scene.layout.Plain meaning scene.holds scene.fits
  once : ∀ w ∈ scene.watchers, ∀ v ∈ scene.watchers, w.id = v.id → w = v
  watches : ∀ w ∈ scene.watchers,
    scene.layout.bodies w.id = some (some (.effect w.task)) ∧ scene.Attentive meaning w

/-- While reactions run: those that are due have yet to run, and all others have run on the values at hand. -/
structure Underway (due : List OwnerId) (values : CellId → ν) (graph : Graph P ν) (outside : σ) : Prop where
  woven : Woven scene.layout scene.Reacts values graph
  bound : ∀ id, scene.Reacts id → id < graph.nextId
  order : due.Pairwise (· < ·)
  react : ∀ id ∈ due, scene.Reacts id
  fit : ∀ cell, scene.layout.cells cell = true → scene.layout.IsSignal cell → scene.fits cell (values cell)
  current : ∀ cell task, scene.layout.Computes cell task → cell + 1 ∉ due →
    ∃ result cells, Reads meaning scene.holds values (meaning task) result cells ∧
      (∀ c ∈ cells, c ∈ graph.sourcesOf (cell + 1)) ∧ (values cell = result ∨ (values cell == result) = true)
  served : ∀ w ∈ scene.watchers, w.id ∉ due →
    ∀ other : CellId → ν, (∀ c ∈ graph.sourcesOf w.id, other c = values c) → w.serves other outside
  stays : scene.stays outside

end Scene

variable {meaning : Interpretation P σ ν} {scene : Scene P σ ν} {due rest : List OwnerId} {values : CellId → ν}
  {graph next : Graph P ν} {outside : σ} {id : OwnerId} {cell : CellId} {cells : List CellId}

namespace Scene.Underway

section

variable (underway : scene.Underway meaning due values graph outside)
include underway

theorem congr
    (cells : ∀ c, next.cells.get? c = graph.cells.get? c) (owners : next.owners = graph.owners) (nextId : next.nextId = graph.nextId) :
    scene.Underway meaning due values next outside where
  woven := underway.woven.congr cells owners
  bound := nextId ▸ underway.bound
  order := underway.order
  react := underway.react
  fit := underway.fit
  current c task computes settled := by
    rw [sourcesOf_congr owners]
    exact underway.current c task computes settled
  served w watches settled := by
    rw [sourcesOf_congr owners]
    exact underway.served w watches settled
  stays := underway.stays

theorem agrees (first : ∀ m ∈ due, id ≤ m) : Agrees meaning scene.holds scene.fits scene.layout id values where
  fit := underway.fit
  current c task computes before := by
    have settled : c + 1 ∉ due := fun mem => Nat.not_lt_of_le (first _ mem) before
    obtain ⟨result, cells, reads, _, same⟩ := underway.current c task computes settled
    exact ⟨result, cells, reads, same⟩

theorem followed {outside' : σ} (late : id ∈ due)
    (there : (graph.owners.get? id).isSome) (before : ∀ c ∈ cells, scene.layout.cells c = true ∧ scene.layout.Before c id)
    (watching : ∀ w ∈ scene.watchers, w.id ∉ due → ∀ other, w.serves other outside → w.serves other outside')
    (stays : scene.stays outside') :
    scene.Underway meaning due values (graph.followed id cells) outside' := by
  have acts := underway.react id late
  obtain ⟨woven, mem⟩ := underway.woven.followed acts there before
  have others : ∀ m, m ∉ due → ∀ c, c ∈ (graph.followed id cells).sourcesOf m ↔ c ∈ graph.sourcesOf m := by
    intro m settled c
    have apart : m ≠ id := fun same => settled (same ▸ late)
    rw [mem, if_neg apart]
  refine ⟨woven, ?_, underway.order, underway.react, underway.fit, ?_, ?_, stays⟩
  · rw [followed_eq]
    exact underway.bound
  · intro c task computes settled
    obtain ⟨result, read, reads, inside, same⟩ := underway.current c task computes settled
    exact ⟨result, read, reads, fun d member => (others _ settled d).mpr (inside d member), same⟩
  · intro w watches settled other same
    apply watching w watches settled
    exact underway.served w watches settled other fun c inside => same c ((others w.id settled c).mpr inside)

theorem put {value : ν} {later : List OwnerId}
    (fits : scene.layout.cells cell = true → scene.layout.IsSignal cell → scene.fits cell value)
    (busy : ∀ task, scene.layout.Computes cell task → cell + 1 ∈ due) (order : later.Pairwise (· < ·))
    (mem : ∀ m, m ∈ later ↔ m ∈ due ∨ cell ∈ graph.sourcesOf m) :
    scene.Underway meaning later (update values cell value) (graph.put cell value) outside := by
  have owners := graph.owners_put cell value
  have apart : ∀ m ∉ later, ∀ c ∈ graph.sourcesOf m, update values cell value c = values c := by
    intro m settled c inside
    refine update_of_ne ?_ ..
    rintro rfl
    exact settled ((mem m).mpr (.inr inside))
  refine ⟨underway.woven.put cell value, ?_, order, ?_, ?_, ?_, ?_, underway.stays⟩
  · rw [put_eq]
    exact underway.bound
  · intro m inside
    rcases (mem m).mp inside with old | new
    · exact underway.react m old
    · exact (underway.woven.reactive m cell new).1
  · intro c alive signal
    by_cases same : c = cell
    · subst same
      rw [update_self]
      exact fits alive signal
    · rw [update_of_ne same]
      exact underway.fit c alive signal
  · intro c task computes settled
    have before : c + 1 ∉ due := fun inside => settled ((mem _).mpr (.inl inside))
    have other : c ≠ cell := by
      rintro rfl
      exact before (busy task computes)
    obtain ⟨result, read, reads, inside, same⟩ := underway.current c task computes before
    rw [sourcesOf_congr owners, update_of_ne other]
    exact ⟨result, read, reads.congr fun d member => apart _ settled d (inside d member), inside, same⟩
  · intro w watches settled other same
    rw [sourcesOf_congr owners] at same
    refine underway.served w watches (fun inside => settled ((mem w.id).mpr (.inl inside))) other fun c inside => ?_
    rw [same c inside, apart w.id settled c inside]

end

theorem settle (underway : scene.Underway meaning (id :: rest) values graph outside)
    (current : ∀ cell task, scene.layout.Computes cell task → cell + 1 = id →
      ∃ result cells, Reads meaning scene.holds values (meaning task) result cells ∧
        (∀ c ∈ cells, c ∈ graph.sourcesOf (cell + 1)) ∧ (values cell = result ∨ (values cell == result) = true))
    (served : ∀ w ∈ scene.watchers, w.id = id →
      ∀ other : CellId → ν, (∀ c ∈ graph.sourcesOf id, other c = values c) → w.serves other outside) :
    scene.Underway meaning rest values graph outside := by
  refine ⟨underway.woven, underway.bound, (pairwise_cons.mp underway.order).2,
    fun m mem => underway.react m (mem_cons_of_mem id mem), underway.fit, ?_, ?_, underway.stays⟩
  · intro c task computes settled
    by_cases here : c + 1 = id
    · exact current c task computes here
    · exact underway.current c task computes (by simp [here, settled])
  · intro w watches settled
    by_cases here : w.id = id
    · rw [here]
      exact served w watches here
    · exact underway.served w watches (by simp [here, settled])

end Scene.Underway

section Running

variable {post : Unit → Graph P ν → σ → Prop} {body : Body P ν} {o : Owner P ν} {result : ν}

theorem ensures_rerun_bare {level : Nat} (found : graph.owners.get? id = some o) (runs : o.body = some body)
    (bare : o.children = [] ∧ o.cleanups = [] ∧ o.cells = [])
    (inner : Ensures level (fun fuel => Run.runBody (run meaning fuel) body) (graph.opened id o.sources) outside
      fun value graph' outside' => post value { graph' with owner := graph.owner, observer := graph.observer } outside') :
    Ensures (level + 1) (fun fuel => run meaning fuel (.rerun id)) graph outside post := by
  refine .job ?_
  simp only [step, Run.rerun]
  refine .see ?_
  rw [found, Option.bind_some, runs]
  refine (ensures_clean found bare.1 bare.2.1).bind ?_
  rintro _ _ _ ⟨rfl, rfl⟩
  rw [bare.2.2]
  exact .note (.inContext inner)

theorem attains_rerun (found : graph.owners.get? id = some o) (runs : o.body = some body)
    (bare : o.children = [] ∧ o.cleanups = [] ∧ o.cells = [])
    (inner : Attains (fun fuel => runBody (run meaning fuel) body) (graph.opened id o.sources) outside
      fun value graph' outside' => post value { graph' with owner := graph.owner, observer := graph.observer } outside') :
    Attains (fun fuel => run meaning fuel (.rerun id)) graph outside post := by
  obtain ⟨_, _, _, holds, level, ran⟩ := inner
  refine Ensures.attains (level + 1) (ensures_rerun_bare found runs bare (ran.mono ?_)) holds
  rintro _ _ _ ⟨_, rfl, rfl⟩
  exact ⟨rfl, rfl, rfl⟩

theorem attains_runBody_computed {task : P ν} {slot : Cell ν} {graph' : Graph P ν}
    (performed : Attains (fun fuel => run meaning fuel (.perform task)) graph outside fun value after outside' =>
      value = result ∧ after = graph' ∧ outside' = outside)
    (found : graph'.cells.get? cell = some slot) (free : slot.inUse = false) (held : slot.value = some old)
    (flushing : graph'.flushing = true) :
    Attains (fun fuel => runBody (run meaning fuel) (.computed cell task)) graph outside fun _ after outside' =>
      after = (if (old == result) = true then graph' else graph'.put cell result) ∧ outside' = outside := by
  refine performed.bind ?_
  rintro result _ _ ⟨rfl, rfl, rfl⟩
  refine .see ?_
  rw [found]
  dsimp only
  rw [held]
  by_cases same : (old == result) = true
  · simp only [free, same, Bool.false_eq_true, if_false, if_true]
    exact .pure ⟨rfl, rfl⟩
  · simp only [free, same, Bool.false_eq_true, if_false]
    exact (ensures_put_flushing found free flushing).attains_done 0 ⟨rfl, rfl⟩

omit [BEq ν] in
theorem Graph.put_context (graph : Graph P ν) (owner observer : Option OwnerId) (cell : CellId) (value : ν) :
    ({ graph with owner, observer } : Graph P ν).put cell value = { graph.put cell value with owner, observer } := by
  have stored : ({ graph with owner, observer } : Graph P ν).store cell value =
      { graph.store cell value with owner, observer } := rfl
  unfold put enqueueSubscribers
  rw [stored]
  cases (graph.store cell value).cells.get? cell <;> rfl

/-- Only cells, subscriptions and the queue have changed. -/
structure Graph.Steady (graph graph' : Graph P ν) : Prop where
  eq : graph' = { graph with cells := graph'.cells, owners := graph'.owners, queue := graph'.queue }
  same : ∀ m, (graph'.owners.get? m).map Owner.still = (graph.owners.get? m).map Owner.still

namespace Graph.Steady

variable {graph' last : Graph P ν}

omit [BEq ν] in
theorem refl (graph : Graph P ν) : graph.Steady graph := ⟨rfl, fun _ => rfl⟩

omit [BEq ν] in
theorem trans (one : graph.Steady graph') (two : graph'.Steady last) : graph.Steady last :=
  ⟨two.eq.trans (by rw [one.eq]), fun m => (two.same m).trans (one.same m)⟩

omit [BEq ν] in
theorem followed (bare : ∀ o, graph.owners.get? id = some o → o.children = [] ∧ o.cleanups = [] ∧ o.cells = [])
    (cells : List CellId) : graph.Steady (graph.followed id cells) :=
  ⟨by rw [followed_eq], graph.still_followed cells bare⟩

omit [BEq ν] in
theorem put (cell : CellId) (value : ν) : graph.Steady (graph.put cell value) :=
  ⟨by rw [put_eq], fun m => by rw [owners_put]⟩

end Graph.Steady

namespace Scene.Underway

variable {task : P ν}

/-- What a reaction leaves when it has run: only later ones are due, and signals have kept their values. -/
def Left (meaning : Interpretation P σ ν) (scene : Scene P σ ν) (id : OwnerId) (values : CellId → ν) (graph : Graph P ν)
    (graph' : Graph P ν) (outside' : σ) : Prop :=
  ∃ values', scene.Underway meaning graph'.queue values' graph' outside' ∧ (∀ m ∈ graph'.queue, id < m) ∧
    (∀ c, scene.layout.IsSignal c → values' c = values c) ∧ graph.Steady graph'

theorem left_computed (sound : scene.Sound meaning)
    (underway : scene.Underway meaning ((cell + 1) :: rest) values graph outside) (queue : graph.queue = rest)
    (runs : scene.layout.Computes cell task) (reads : Reads meaning scene.holds values (meaning task) result cells)
    (before : ∀ c ∈ cells, c < cell) (inside : ∀ c ∈ cells, c ∈ graph.sourcesOf (cell + 1)) :
    Left meaning scene (cell + 1) values graph
      (if (values cell == result) = true then graph else graph.put cell result) outside := by
  have unwatched : ∀ w ∈ scene.watchers, w.id ≠ cell + 1 := by
    intro w watches here
    have effect := (sound.watches w watches).1
    rw [here, show scene.layout.bodies (cell + 1) = _ from runs] at effect
    simp at effect
  obtain ⟨above, _⟩ := pairwise_cons.mp underway.order
  split
  · rename_i same
    refine ⟨values, ?_, fun m later => above m (queue ▸ later), fun _ _ => rfl, .refl graph⟩
    rw [queue]
    refine underway.settle (fun c other computes here => ?_) fun w watches here => absurd here (unwatched w watches)
    obtain rfl := succ.inj here
    obtain rfl := computes.task_eq runs
    exact ⟨_, cells, reads, inside, .inr same⟩
  · obtain ⟨-, alive⟩ := sound.plain.placed _ cell task runs
    obtain ⟨slot, found⟩ := Option.isSome_iff_exists.mp ((underway.woven.cellAlive cell).trans alive)
    have mem : ∀ m, m ∈ (graph.put cell result).queue ↔ m ∈ rest ∨ cell ∈ graph.sourcesOf m := fun m => by
      rw [mem_queue_put found, queue, underway.woven.agree cell slot found]
    have later : ∀ m ∈ (graph.put cell result).queue, cell + 1 < m := by
      intro m member
      rcases (mem m).mp member with old | new
      · exact above m old
      · exact (underway.woven.reactive m cell new).2.2 task runs
    have sorted : graph.queue.Pairwise (· < ·) := queue ▸ (pairwise_cons.mp underway.order).2
    have put : scene.Underway meaning ((cell + 1) :: (graph.put cell result).queue) (update values cell result)
        (graph.put cell result) outside := by
      refine underway.put (fun _ signal => absurd runs (signal task)) (fun _ _ => by simp)
        (pairwise_cons.mpr ⟨later, pairwise_put sorted⟩) fun m => ?_
      rw [mem_cons, mem_cons, mem, or_assoc]
    refine ⟨update values cell result, ?_, later, fun c signal => ?_, .put cell result⟩
    · refine put.settle (fun c other computes here => ?_) fun w watches here => absurd here (unwatched w watches)
      obtain rfl := succ.inj here
      obtain rfl := computes.task_eq runs
      have kept : ∀ d ∈ cells, update values c result d = values d := fun d member =>
        update_of_ne (before d member).ne ..
      rw [sourcesOf_congr (graph.owners_put c result)]
      exact ⟨result, cells, reads.congr kept, inside, .inl (update_self ..)⟩
    · refine update_of_ne ?_ ..
      rintro rfl
      exact signal task runs

theorem rerun_computed {task : P ν} (sound : scene.Sound meaning)
    (underway : scene.Underway meaning (id :: rest) values graph outside)
    (runs : scene.layout.bodies id = some (some (.computed cell task))) (flushing : graph.flushing = true)
    (queue : graph.queue = rest) :
    Attains (fun fuel => run meaning fuel (.rerun id)) graph outside fun _ => Left meaning scene id values graph := by
  obtain ⟨rfl, alive⟩ := sound.plain.placed id cell task runs
  obtain ⟨o, found, body⟩ := Option.map_eq_some_iff.mp ((underway.woven.bodies (cell + 1)).trans runs)
  obtain ⟨above, _⟩ := pairwise_cons.mp underway.order
  have acts := underway.react (cell + 1) (by simp)
  have agrees : Agrees meaning scene.holds scene.fits scene.layout (cell + 1) values :=
    underway.agrees (forall_mem_cons.mpr ⟨le_rfl, fun m later => (above m later).le⟩)
  obtain ⟨result, cells, reads, before⟩ := sound.plain.reads cell task values runs agrees
  have older : ∀ c ∈ cells, scene.layout.cells c = true ∧ scene.layout.Before c (cell + 1) := fun c inside =>
    ⟨(before c inside).2, lt_succ_of_lt (before c inside).1, fun _ _ => succ_lt_succ (before c inside).1⟩
  have followed := underway.followed (mem_cons_self ..) (by simp [found]) older (fun _ _ _ _ served => served)
    underway.stays
  have mem := (underway.woven.followed acts (by simp [found]) older).2
  have opened := underway.woven.opened (cell + 1)
  have sources : o.sources = graph.sourcesOf (cell + 1) := by simp [sourcesOf, found]
  have spares : graph.Steady (graph.followed (cell + 1) cells) :=
    .followed (fun o => underway.woven.bare (cell + 1) o acts) cells
  have left := followed.left_computed sound (by rw [followed_eq]; exact queue) runs reads (fun c inside => (before c inside).1)
    fun c inside => (mem (cell + 1) c).mpr (by rwa [if_pos rfl])
  have performed := reads.attains_task (sound.steady _ underway.stays) opened.shows fun c inside =>
    (opened.cellAlive c).trans (before c inside).2
  obtain ⟨slot, there⟩ := Option.isSome_iff_exists.mp
    ((cellAlive_trackAll _ cells cell).trans ((opened.cellAlive cell).trans alive))
  obtain ⟨free, held⟩ := opened.shows.trackAll cells cell slot there
  refine attains_rerun found body (underway.woven.bare _ o acts found) ?_
  rw [sources]
  refine (attains_runBody_computed performed there free held (by rw [trackAll_eq]; exact flushing)).mono ?_
  rintro _ _ _ ⟨rfl, rfl⟩
  have context : ({ (if (values cell == result) = true then
        (graph.opened (cell + 1) (graph.sourcesOf (cell + 1))).trackAll cells
      else ((graph.opened (cell + 1) (graph.sourcesOf (cell + 1))).trackAll cells).put cell result) with
        owner := graph.owner, observer := graph.observer } : Graph P ν) =
      if (values cell == result) = true then graph.followed (cell + 1) cells
      else (graph.followed (cell + 1) cells).put cell result := by
    split
    · rfl
    · exact (put_context ..).symm
  rw [context]
  obtain ⟨values', done, later, signals, spared⟩ := left
  exact ⟨values', done, later, signals, spares.trans spared⟩

theorem rerun_watcher {w : Watcher P σ ν} (sound : scene.Sound meaning)
    (underway : scene.Underway meaning (w.id :: rest) values graph outside) (watches : w ∈ scene.watchers)
    (queue : graph.queue = rest) :
    Attains (fun fuel => run meaning fuel (.rerun w.id)) graph outside fun _ => Left meaning scene w.id values graph := by
  obtain ⟨runs, attentive⟩ := sound.watches w watches
  obtain ⟨o, found, body⟩ := Option.map_eq_some_iff.mp ((underway.woven.bodies w.id).trans runs)
  obtain ⟨above, _⟩ := pairwise_cons.mp underway.order
  have acts := underway.react w.id (by simp)
  have agrees : Agrees meaning scene.holds scene.fits scene.layout w.id values :=
    underway.agrees (forall_mem_cons.mpr ⟨le_rfl, fun m later => (above m later).le⟩)
  obtain ⟨cells, outside', before, stays, _, serves, others, ensures⟩ := attentive values outside underway.stays agrees
  have older : ∀ c ∈ cells, scene.layout.cells c = true ∧ scene.layout.Before c w.id := by
    intro c inside
    refine ⟨(before c inside).2, (before c inside).1, fun other computes => ?_⟩
    refine lt_of_le_of_ne (before c inside).1 fun here => ?_
    rw [Layout.Computes, here, runs] at computes
    simp at computes
  have followed := underway.followed (mem_cons_self ..) (by simp [found]) older
    (fun v another settled => others v another fun same => settled (same ▸ mem_cons_self ..)) stays
  have mem := (underway.woven.followed acts (by simp [found]) older).2
  have queue' : (graph.followed w.id cells).queue = rest := by rw [followed_eq]; exact queue
  have settled : scene.Underway meaning rest values (graph.followed w.id cells) outside' := by
    refine followed.settle (fun c other computes here => ?_) fun v another here shown same => ?_
    · rw [Layout.Computes, here, runs] at computes
      simp at computes
    · rw [sound.once v another w watches here]
      exact serves shown fun c inside => same c ((mem w.id c).mpr (by rwa [if_pos rfl]))
  have bare := fun o => underway.woven.bare w.id o acts
  have left : Left meaning scene w.id values graph (graph.followed w.id cells) outside' :=
    ⟨values, queue'.symm ▸ settled, fun m later => above m (queue' ▸ later), fun _ _ => rfl, .followed bare cells⟩
  have opened := underway.woven.opened w.id
  have sources : o.sources = graph.sourcesOf w.id := by simp [sourcesOf, found]
  obtain ⟨level, ran⟩ := ensures _ ⟨fun c there => (opened.cellAlive c).trans there,
    fun m there => (opened.ownerAlive m).trans there⟩ opened.shows
  have performed : Attains (fun fuel => run meaning fuel (.perform w.task)) (graph.opened w.id (graph.sourcesOf w.id)) outside
      fun _ after beyond => after = (graph.opened w.id (graph.sourcesOf w.id)).trackAll cells ∧ beyond = outside' :=
    ran.task.attains_done (level + 1) ⟨rfl, rfl⟩
  refine attains_rerun found body (bare o found) ?_
  rw [sources]
  refine performed.mono ?_
  rintro _ _ _ ⟨rfl, rfl⟩
  exact left

theorem rerun (sound : scene.Sound meaning) (underway : scene.Underway meaning (id :: rest) values graph outside)
    (flushing : graph.flushing = true) (queue : graph.queue = rest) :
    Attains (fun fuel => run meaning fuel (.rerun id)) graph outside fun _ => Left meaning scene id values graph := by
  rcases underway.react id (mem_cons_self ..) with ⟨cell, task, runs⟩ | ⟨w, watches, rfl⟩
  · exact underway.rerun_computed sound runs flushing queue
  · exact underway.rerun_watcher sound watches queue

def Done (meaning : Interpretation P σ ν) (scene : Scene P σ ν) (values : CellId → ν) (graph : Graph P ν)
    (graph' : Graph P ν) (outside' : σ) : Prop :=
  ∃ values', scene.Underway meaning [] values' graph' outside' ∧
    (∀ c, scene.layout.IsSignal c → values' c = values c) ∧ graph'.queue = [] ∧ graph.Steady graph'

theorem drain (room : Nat) (sound : scene.Sound meaning) (underway : scene.Underway meaning due values graph outside)
    (flushing : graph.flushing = true) (queue : graph.queue = due) (enough : ∀ m ∈ due, graph.nextId ≤ m + room) :
    Attains (fun fuel => run meaning fuel .drain) graph outside fun _ => Done meaning scene values graph := by
  induction room generalizing due values graph outside with
  | zero =>
    have none : due = [] := eq_nil_iff_forall_not_mem.mpr fun m mem =>
      Nat.not_lt_of_le (enough m mem) (underway.bound m (underway.react m mem))
    subst none
    refine .job ?_
    simp only [step, Run.drain]
    refine .see ?_
    rw [queue]
    exact .pure ⟨values, underway, fun _ _ => rfl, queue, .refl graph⟩
  | succ _ ih =>
    cases due with
    | nil =>
      refine .job ?_
      simp only [step, Run.drain]
      refine .see ?_
      rw [queue]
      exact .pure ⟨values, underway, fun _ _ => rfl, queue, .refl graph⟩
    | cons id rest =>
      refine .job ?_
      simp only [step, Run.drain]
      refine .see ?_
      rw [queue]
      refine .alter ?_
      have popped : scene.Underway meaning (id :: rest) values { graph with queue := rest } outside :=
        underway.congr (fun _ => rfl) rfl rfl
      refine (popped.rerun sound flushing rfl).bind ?_
      rintro _ graph' _ ⟨_, underway', later, signals, spares⟩
      have nextId : graph'.nextId = graph.nextId := by rw [spares.eq]
      have busy : graph'.flushing = true := by rw [spares.eq]; exact flushing
      refine (ih underway' busy rfl fun m mem => ?_).mono ?_
      · have first := enough id (by simp)
        have above : Nat.succ id ≤ m := later m mem
        omega
      · rintro _ _ _ ⟨values'', done, kept, none, spared⟩
        have popping : graph.Steady { graph with queue := rest } := ⟨rfl, fun _ => rfl⟩
        exact ⟨values'', done, fun c signal => (kept c signal).trans (signals c signal), none,
          popping.trans (spares.trans spared)⟩

theorem flush (sound : scene.Sound meaning) (underway : scene.Underway meaning graph.queue values graph outside)
    (free : graph.flushing = false) :
    Attains (fun fuel => Run.flush (run meaning fuel)) graph outside fun _ => Done meaning scene values graph := by
  unfold Run.flush
  refine .see ?_
  rw [free]
  refine .alter ?_
  have flushing : scene.Underway meaning graph.queue values { graph with flushing := true } outside :=
    underway.congr (fun _ => rfl) rfl rfl
  refine (flushing.drain graph.nextId sound rfl rfl fun m _ => Nat.le_add_left ..).bind ?_
  rintro _ _ _ ⟨values', done, signals, none, spares⟩
  refine .altered ⟨values', done.congr (fun _ => rfl) rfl rfl, signals, none, ?_, spares.same⟩
  rw [spares.eq, ← free]

end Scene.Underway

end Running

section Writing

variable {slot : Cell ν} {post : Unit → Graph P ν → σ → Prop} {value : ν}

/-- Writes to signals, one after the other, some of them in batches. -/
inductive Writes (ν : Type) where
  | nothing
  | set (signal : CellId) (value : ν)
  /-- Changes the value in place. -/
  | update (signal : CellId) (change : ν → ν)
  | both (first second : Writes ν)
  | batch (writes : Writes ν)

namespace Writes

def program : Writes ν → Program P σ ν Unit
  | nothing => Pure.pure ()
  | set signal value => Program.perform (.write signal value)
  | update signal change => Program.updateCell signal fun old => Pure.pure (change old)
  | both first second => do
    first.program
    second.program
  | batch writes => Program.batch writes.program

def apply (values : CellId → ν) : Writes ν → CellId → ν
  | nothing => values
  | set signal value => Function.update values signal value
  | update signal change => Function.update values signal (change (values signal))
  | both first second => second.apply (first.apply values)
  | batch writes => writes.apply values

/-- Only signals are written, and only with values that fit them. -/
def Fit (layout : Layout P ν) (fits : CellId → ν → Prop) : Writes ν → Prop
  | nothing => True
  | set signal value => layout.IsSignal signal ∧ fits signal value
  | update signal change => layout.IsSignal signal ∧ ∀ value, fits signal value → fits signal (change value)
  | both first second => first.Fit layout fits ∧ second.Fit layout fits
  | batch writes => writes.Fit layout fits

omit [BEq ν] in
theorem Fit.mono {layout : Layout P ν} {fits : CellId → ν → Prop} {writes : Writes ν} (fit : writes.Fit layout fits)
    (signals : ∀ c, layout.IsSignal c → other.IsSignal c) : writes.Fit other fits := by
  induction writes with
  | nothing => trivial
  | set signal | update signal => exact ⟨signals signal fit.1, fit.2⟩
  | both _ _ one two => exact ⟨one fit.1, two fit.2⟩
  | batch _ ih => exact ih fit

omit [BEq ν] in
theorem apply_congr {values other : CellId → ν} {c : CellId} (writes : Writes ν) (same : other c = values c) :
    writes.apply other c = writes.apply values c := by
  induction writes generalizing values other with
  | nothing => exact same
  | set signal => by_cases here : c = signal <;> simp [apply, here, same]
  | update signal =>
    by_cases here : c = signal
    · subst here
      simp [apply, same]
    · simp [apply, here, same]
  | both _ _ one two => exact two (one same)
  | batch _ ih => exact ih same

end Writes

/-- Between writes: outside of batches nobody is due. -/
structure Scene.Quiet (meaning : Interpretation P σ ν) (scene : Scene P σ ν) (values : CellId → ν) (graph : Graph P ν)
    (outside : σ) : Prop where
  underway : scene.Underway meaning graph.queue values graph outside
  free : graph.flushing = false
  idle : graph.batchDepth = 0 → graph.queue = []

namespace Scene

def Written (meaning : Interpretation P σ ν) (scene : Scene P σ ν) (signals : CellId → ν) (graph : Graph P ν)
    (graph' : Graph P ν) (outside' : σ) : Prop :=
  ∃ values', scene.Quiet meaning values' graph' outside' ∧
    (∀ c, scene.layout.cells c = true → scene.layout.IsSignal c → values' c = signals c) ∧ graph.Steady graph'

theorem Underway.release (sound : scene.Sound meaning) (underway : scene.Underway meaning graph.queue values graph outside)
    (free : graph.flushing = false) :
    Attains (fun fuel => if graph.batchDepth = 0 then Run.flush (run meaning fuel) else pure ()) graph outside
      fun _ => Written meaning scene values graph := by
  by_cases top : graph.batchDepth = 0
  · simp only [top, if_true]
    refine (underway.flush sound free).mono ?_
    rintro _ _ _ ⟨values', done, signals, queue, spares⟩
    exact ⟨values', ⟨queue.symm ▸ done, by rw [spares.eq]; exact free, fun _ => queue⟩, fun c _ => signals c, spares⟩
  · simp only [top, if_false]
    exact .pure ⟨values, ⟨underway, free, fun none => absurd none top⟩, fun _ _ _ => rfl, .refl graph⟩

end Scene

theorem attains_put (found : graph.cells.get? cell = some slot) (free : slot.inUse = false)
    (next : Attains (fun fuel => if graph.batchDepth = 0 then flush (run meaning fuel) else pure ())
      (graph.put cell value) outside post) :
    Attains (fun fuel => write (run meaning fuel) cell value) graph outside post := by
  obtain ⟨_, _, _, holds, level, ensures⟩ := next
  exact (ensures_put found free ensures).attains level holds

omit [BEq ν] in
theorem Graph.enqueue_updated (value : ν) (found : graph.cells.get? cell = some slot) (free : slot.inUse = false) :
    let updated := ((graph.setInUse cell true).store cell value).setInUse cell false
    updated.enqueueSubscribers cell = { graph.put cell value with cells := updated.cells } ∧
      ∀ c, updated.cells.get? c = (graph.put cell value).cells.get? c := by
  intro updated
  have pointwise : ∀ c, updated.cells.get? c =
      if c = cell then some { slot with value := some value } else graph.cells.get? c := by
    intro c
    show (((graph.cells.modify cell _).modify cell _).modify cell _).get? c = _
    simp only [Table.get?_modify]
    by_cases same : c = cell
    · subst same
      simp [found, free]
    · simp [same]
  have stored : (graph.store cell value).cells.get? cell = some { slot with value := some value } := by
    show (Table.modify _ _ _).get? _ = _
    rw [Table.get?_modify, if_pos rfl, found]
    rfl
  refine ⟨?_, fun c => ?_⟩
  · unfold put enqueueSubscribers
    rw [pointwise, if_pos rfl, stored]
    rfl
  · rw [pointwise, cells_put]
    by_cases same : c = cell
    · subst same
      simp [found]
    · simp [same]

theorem attains_updateCell {change : ν → ν} (found : graph.cells.get? cell = some slot) (free : slot.inUse = false)
    (held : slot.value = some old) (gives : change old = value)
    (next : ∀ cells, (∀ c, cells.get? c = (graph.put cell value).cells.get? c) →
      Attains (fun fuel => if graph.batchDepth = 0 then Run.flush (run meaning fuel) else pure ())
        { graph.put cell value with cells } outside post) :
    Attains (fun fuel => Run.updateCell (run meaning fuel) cell fun old => Pure.pure (change old)) graph outside post := by
  obtain ⟨queued, same⟩ := enqueue_updated value found free
  have alive : (((graph.setInUse cell true).store cell value).setInUse cell false).cellAlive cell = true := by
    rw [cellAlive, Table.contains, same, cells_put, found]
    simp
  have depth : (graph.put cell value).batchDepth = graph.batchDepth := by rw [put_eq]
  have after := next _ same
  rw [← queued] at after
  unfold Run.updateCell Run.notify
  refine .see ?_
  rw [found]
  dsimp only
  rw [held]
  simp only [free, Bool.false_eq_true, if_false, pure_bind, gives]
  unfold Run.store
  simp only [bind_assoc]
  refine .alter (.alter (.note (.alter (.see ?_))))
  rw [alive]
  refine .alter (.see ?_)
  rw [queued]
  rw [queued] at after
  show Attains (fun fuel => if (graph.put cell value).batchDepth = 0 then Run.flush (run meaning fuel) else pure ()) _ _ _
  rw [depth]
  exact after

namespace Scene

theorem Quiet.put {value : ν} {slot : Cell ν} (sound : scene.Sound meaning)
    (quiet : scene.Quiet meaning values graph outside) (found : graph.cells.get? cell = some slot)
    (signal : scene.layout.IsSignal cell) (fits : scene.fits cell value) (cells : Table (Cell ν))
    (same : ∀ c, cells.get? c = (graph.put cell value).cells.get? c) :
    Attains (fun fuel => if graph.batchDepth = 0 then Run.flush (run meaning fuel) else pure ())
      { graph.put cell value with cells } outside fun _ =>
        Written meaning scene (update values cell value) graph := by
  have frame : graph.put cell value =
      { graph with cells := (graph.store cell value).cells, queue := (graph.put cell value).queue } := put_eq
  have put : scene.Underway meaning (graph.put cell value).queue (update values cell value)
      (graph.put cell value) outside :=
    quiet.underway.put (fun _ _ => fits) (fun task computes => absurd computes (signal task))
      (pairwise_put quiet.underway.order) fun m => by
        rw [mem_queue_put found, quiet.underway.woven.agree cell slot found]
  have due : scene.Underway meaning ({ graph.put cell value with cells } : Graph P ν).queue
      (update values cell value) { graph.put cell value with cells } outside := put.congr same rfl rfl
  have depth : ({ graph.put cell value with cells } : Graph P ν).batchDepth = graph.batchDepth := by rw [frame]
  have run := due.release sound (by rw [frame]; exact quiet.free)
  rw [depth] at run
  refine run.mono ?_
  rintro _ _ _ ⟨values', quiet', signals, spares⟩
  have putting : graph.Steady { graph.put cell value with cells } := ⟨by rw [frame], fun m => by rw [frame]⟩
  exact ⟨values', quiet', signals, putting.trans spares⟩

theorem Quiet.unwritten {signals : CellId → ν} (quiet : scene.Quiet meaning values graph outside)
    (gone : graph.cells.get? cell = none) (same : ∀ c, c ≠ cell → signals c = values c) :
    Written meaning scene signals graph graph outside := by
  refine ⟨values, quiet, fun c alive _ => (same c ?_).symm, .refl graph⟩
  rintro rfl
  have there := (quiet.underway.woven.cellAlive c).trans alive
  simp [cellAlive, Table.contains, gone] at there

theorem Quiet.write (sound : scene.Sound meaning) (writes : Writes ν) (quiet : scene.Quiet meaning values graph outside)
    (fit : writes.Fit scene.layout scene.fits) :
    (writes.program : Program P σ ν Unit).Attains meaning graph outside
      fun _ => Written meaning scene (writes.apply values) graph := by
  induction writes generalizing values graph outside with
  | nothing => exact Program.attains_pure ⟨values, quiet, fun _ _ _ => rfl, .refl graph⟩
  | set signal =>
    refine Program.attains_perform ?_
    cases found : graph.cells.get? signal with
    | none =>
      simp only [Run.command, Run.write]
      refine .see ?_
      rw [found]
      exact .pure (quiet.unwritten found fun c apart => update_of_ne apart ..)
    | some slot =>
      obtain ⟨free, _⟩ := quiet.underway.woven.shows signal slot found
      exact attains_put found free (quiet.put sound found fit.1 fit.2 _ fun _ => rfl)
  | update signal change =>
    suffices updated : Attains (fun fuel => Run.updateCell (run meaning fuel) signal fun old => Pure.pure (change old))
        graph outside fun _ => Written meaning scene (update values signal (change (values signal))) graph from
      updated.bind fun _ _ _ holds => .pure holds
    cases found : graph.cells.get? signal with
    | none =>
      unfold Run.updateCell
      refine .see ?_
      rw [found]
      exact .pure (quiet.unwritten found fun c apart => update_of_ne apart ..)
    | some slot =>
      obtain ⟨free, held⟩ := quiet.underway.woven.shows signal slot found
      have alive : scene.layout.cells signal = true := by
        rw [← quiet.underway.woven.cellAlive, cellAlive, Table.contains, found]
        rfl
      have fits := fit.2 _ (quiet.underway.fit signal alive fit.1)
      exact attains_updateCell found free held rfl (quiet.put sound found fit.1 fits)
  | both _ second one two =>
    refine (one quiet fit.1).bind ?_
    rintro _ _ _ ⟨_, quiet', signals, spares⟩
    refine (two quiet' fit.2).mono ?_
    rintro _ _ _ ⟨values'', quiet'', after, spared⟩
    refine ⟨values'', quiet'', fun c alive signal => ?_, spares.trans spared⟩
    rw [after c alive signal]
    exact Writes.apply_congr second (signals c alive signal)
  | batch writes ih =>
    have mem : scene.Quiet meaning values { graph with batchDepth := graph.batchDepth + 1 } outside :=
      ⟨quiet.underway.congr (fun _ => rfl) rfl rfl, quiet.free, fun none => absurd none (succ_ne_zero _)⟩
    suffices batched : Attains (fun fuel => Run.inBatch (run meaning fuel) (writes.program.run (run meaning fuel)))
        graph outside fun _ => Written meaning scene (writes.apply values) graph from
      batched.bind fun _ _ _ holds => .pure holds
    refine Attains.inBatch (ih mem fit) ?_
    rintro _ graph' outside' ⟨values', quiet', signals, spares⟩
    have ended : scene.Underway meaning ({ graph' with batchDepth := graph'.batchDepth - 1 } : Graph P ν).queue values'
        { graph' with batchDepth := graph'.batchDepth - 1 } outside' := quiet'.underway.congr (fun _ => rfl) rfl rfl
    refine (ended.release sound quiet'.free).mono ?_
    rintro _ _ _ ⟨values'', quiet'', after, spared⟩
    have closing : graph.Steady { graph' with batchDepth := graph'.batchDepth - 1 } :=
      ⟨by rw [spares.eq]; rfl, spares.same⟩
    exact ⟨values'', quiet'', fun c alive signal => (after c alive signal).trans (signals c alive signal),
      closing.trans spared⟩

end Scene

end Writing

end LiveMarkup.Reactive
