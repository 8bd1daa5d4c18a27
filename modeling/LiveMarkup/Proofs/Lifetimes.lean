import LiveMarkup.Proofs.Currency
import LiveMarkup.Proofs.Flushing
import LiveMarkup.Proofs.Subtrees

/-!
Reactions that come and go. A watcher that is made runs at once and then follows what it has read; when a scope is
disposed, its reactions and cells go with it, and what is left stands as it stood.
-/

namespace LiveMarkup.Reactive
open List Reactive.Graph Program Run

variable {P : Type → Type} {σ ν : Type} {meaning : Interpretation P σ ν} {outside : σ}
variable {fits : CellId → ν → Prop} {layout : Layout P ν} {values : CellId → ν} {graph : Graph P ν} {holds : σ → Prop}

theorem Program.Ensures.attained [BEq ν] {α : Type} {program : Program P σ ν α} {level : Nat} {post : α → Graph P ν → σ → Prop}
    (ensures : program.Ensures meaning level graph outside post) : program.Attains meaning graph outside post := by
  obtain ⟨result, graph', outside', _, ran, holds⟩ := ensures level [] le_rfl
  refine ⟨result, graph', outside', holds, level, fun fuel earlier above => ?_⟩
  obtain ⟨new, -, again⟩ := Exceeds.execute program above _ _ _ ran
  exact ⟨result, graph', outside', new ++ earlier, again earlier, rfl, rfl, rfl⟩

structure Graph.Numbered (graph : Graph P ν) : Prop where
  cells : ∀ cell, graph.cellAlive cell = true → cell < graph.nextId
  owners : ∀ id, graph.ownerAlive id = true → id < graph.nextId

theorem Graph.Numbered.of_has {next : Graph P ν} (numbered : graph.Numbered) (has : graph.Has next.layout)
    (nextId : next.nextId = graph.nextId) : next.Numbered where
  cells c alive := nextId ▸ numbered.cells c (has.cells c alive)
  owners m alive := nextId ▸ numbered.owners m (has.owners m (next.ownerAlive_eq m ▸ alive))

theorem Scene.Quiet.under [BEq ν] {scene : Scene P σ ν} (quiet : scene.Quiet meaning values graph outside)
    (owner observer : Option OwnerId) : scene.Quiet meaning values { graph with owner, observer } outside :=
  ⟨quiet.underway.congr (fun _ => rfl) rfl rfl, quiet.free, quiet.idle⟩

/-- A graph at rest, outside of batches, whose computed cells are up to date and whose watchers have done what they are
for. -/
structure Scene.Poised [BEq ν] (meaning : Interpretation P σ ν) (scene : Scene P σ ν) (values : CellId → ν)
    (graph : Graph P ν) (outside : σ) : Prop where
  sound : scene.Sound meaning
  numbered : graph.Numbered
  top : graph.batchDepth = 0
  quiet : scene.Quiet meaning values graph outside

namespace Scene.Poised

variable [BEq ν] {scene : Scene P σ ν} (poised : scene.Poised meaning values graph outside)
include poised

theorem underway : scene.Underway meaning [] values graph outside := by
  have underway := poised.quiet.underway
  rwa [poised.quiet.idle poised.top] at underway

theorem under (owner observer : Option OwnerId) : scene.Poised meaning values { graph with owner, observer } outside :=
  ⟨poised.sound, ⟨poised.numbered.cells, poised.numbered.owners⟩, poised.top, poised.quiet.under owner observer⟩

theorem agrees (bound : OwnerId) : Agrees meaning scene.holds scene.fits scene.layout bound values :=
  poised.underway.agrees (by simp)

theorem write (writes : Writes ν) (fit : writes.Fit scene.layout scene.fits) :
    (writes.program : Program P σ ν Unit).Attains meaning graph outside fun _ graph' outside' => ∃ values',
      scene.Poised meaning values' graph' outside' ∧
        (∀ c, scene.layout.cells c = true → scene.layout.IsSignal c → values' c = writes.apply values c) ∧
        graph.Steady graph' := by
  refine (poised.quiet.write poised.sound writes fit).mono ?_
  rintro _ graph' _ ⟨values', quiet, signals, steady⟩
  have layout : graph'.layout = graph.layout :=
    quiet.underway.woven.layout_eq.trans poised.quiet.underway.woven.layout_eq.symm
  have has : graph.Has graph'.layout := by
    rw [layout]
    exact ⟨fun _ alive => alive, fun m there => (graph.ownerAlive_eq m).trans there⟩
  refine ⟨values', ⟨poised.sound, poised.numbered.of_has has (by rw [steady.eq]), ?_, quiet⟩, signals, steady⟩
  rw [steady.eq]
  exact poised.top

end Scene.Poised

section Joining

def Layout.add (layout : Layout P ν) (id : OwnerId) (body : Body P ν) : Layout P ν :=
  { layout with bodies := Function.update layout.bodies id (some (some body)) }

variable {layout : Layout P ν} {id : OwnerId} {cell : CellId} {task : P Unit} {computing : P ν}

theorem Layout.computes_add (fresh : layout.bodies id = none) :
    (layout.add id (.effect task)).Computes cell computing ↔ layout.Computes cell computing := by
  unfold Layout.Computes Layout.add
  by_cases here : cell + 1 = id
  · simp [here, fresh]
  · simp [here]

theorem Layout.isSignal_add (fresh : layout.bodies id = none) :
    (layout.add id (.effect task)).IsSignal cell ↔ layout.IsSignal cell :=
  forall_congr' fun _ => not_congr (Layout.computes_add fresh)

theorem agrees_add [BEq ν] {meaning : Interpretation P σ ν} {holds : σ → Prop} {fits : CellId → ν → Prop} {bound : OwnerId}
    {values : CellId → ν} (fresh : layout.bodies id = none) :
    Agrees meaning holds fits (layout.add id (.effect task)) bound values ↔ Agrees meaning holds fits layout bound values :=
  ⟨fun agrees => agrees.congr rfl fun _ _ => Layout.computes_add fresh,
    fun agrees => agrees.congr rfl fun _ _ => (Layout.computes_add fresh).symm⟩

theorem Layout.Plain.add [BEq ν] {meaning : Interpretation P σ ν} {holds : σ → Prop} {fits : CellId → ν → Prop}
    (plain : layout.Plain meaning holds fits) (fresh : layout.bodies id = none) :
    (layout.add id (.effect task)).Plain meaning holds fits where
  placed m c other runs := by
    by_cases here : m = id
    · subst here
      simp [Layout.add] at runs
    · exact plain.placed m c other (by simpa [Layout.add, here] using runs)
  reads c other values computes agrees :=
    plain.reads c other values ((Layout.computes_add fresh).mp computes) ((agrees_add fresh).mp agrees)

variable {graph : Graph P ν} {scope : OwnerId}

theorem Graph.Numbered.fresh (numbered : graph.Numbered) : graph.owners.get? graph.nextId = none := by
  by_contra there
  have alive : graph.ownerAlive graph.nextId = true := Option.isSome_iff_ne_none.mpr there
  exact lt_irrefl _ (numbered.owners _ alive)

theorem Graph.owners_begun (numbered : graph.Numbered) (alive : graph.ownerAlive scope = true) (body : Body P ν) (m : OwnerId) :
    (graph.begun (some scope) body).owners.get? m =
      if m = graph.nextId then some { parent := some scope, body := some body }
      else if m = scope then (graph.owners.get? m).map fun o => { o with children := o.children ++ [graph.nextId] }
      else graph.owners.get? m := by
  have apart : graph.nextId ≠ scope := (numbered.owners scope alive).ne.symm
  show (Table.modify _ _ _).get? m = _
  rw [Table.get?_modify, Table.get?_insert]
  by_cases new : m = graph.nextId
  · simp [new, apart]
  · simp [new]

theorem Graph.sourcesOf_begun (numbered : graph.Numbered) (alive : graph.ownerAlive scope = true) (body : Body P ν)
    (m : OwnerId) : (graph.begun (some scope) body).sourcesOf m = graph.sourcesOf m := by
  unfold sourcesOf
  rw [owners_begun numbered alive]
  split
  · rename_i new
    rw [new, numbered.fresh]
    rfl
  · split
    · cases graph.owners.get? m <;> rfl
    · rfl

theorem Graph.layout_begun (numbered : graph.Numbered) (alive : graph.ownerAlive scope = true) (body : Body P ν) :
    (graph.begun (some scope) body).layout = graph.layout.add graph.nextId body := by
  unfold layout Layout.add
  congr 1
  funext m
  rw [owners_begun numbered alive]
  by_cases new : m = graph.nextId
  · simp [new]
  · rw [if_neg new, Function.update_of_ne new]
    split
    · rw [Option.map_map]
      rfl
    · rfl

variable [BEq ν] {meaning : Interpretation P σ ν} {values : CellId → ν} {outside other : σ}

/-- A scene in which more is kept. -/
def Scene.kept (scene : Scene P σ ν) (stays : σ → Prop) : Scene P σ ν :=
  { scene with stays := fun outside => scene.stays outside ∧ stays outside }

/-- A scene with one more watcher, and what it may change. -/
def Scene.watched (scene : Scene P σ ν) (w : Watcher P σ ν) (changes : σ → σ → Prop) : Scene P σ ν :=
  { scene with
    layout := scene.layout.add w.id (.effect w.task)
    watchers := insert w scene.watchers
    changes := fun outside outside' => scene.changes outside outside' ∨ changes outside outside' }

variable {scene : Scene P σ ν} {stays : σ → Prop} {changes : σ → σ → Prop} {w : Watcher P σ ν}

theorem Scene.Sound.kept (sound : scene.Sound meaning) (keeps : ∀ outside outside', scene.stays outside → stays outside →
    scene.changes outside outside' → stays outside') : (scene.kept stays).Sound meaning where
  steady outside both := sound.steady outside both.1
  plain := sound.plain
  once := sound.once
  watches v watches := by
    obtain ⟨runs, attentive⟩ := sound.watches v watches
    refine ⟨runs, fun values outside both agrees => ?_⟩
    obtain ⟨cells, outside', before, stays', changed, rest⟩ := attentive values outside both.1 agrees
    exact ⟨cells, outside', before, ⟨stays', keeps outside outside' both.1 both.2 changed⟩, changed, rest⟩

theorem Scene.Sound.watched (sound : scene.Sound meaning) (fresh : scene.layout.bodies w.id = none)
    (kept : ∀ outside outside', scene.stays outside → scene.changes outside outside' → ∀ values, w.serves values outside →
      w.serves values outside')
    (attentive : (scene.watched w changes).Attentive meaning w) : (scene.watched w changes).Sound meaning := by
  have apart : ∀ v ∈ scene.watchers, v.id ≠ w.id := by
    intro v watches same
    rw [← same, (sound.watches v watches).1] at fresh
    cases fresh
  refine ⟨sound.steady, sound.plain.add fresh, ?_, ?_⟩
  · rintro v (rfl | one) u (rfl | two) same
    · rfl
    · exact absurd same.symm (apart u two)
    · exact absurd same (apart v one)
    · exact sound.once v one u two same
  · rintro v (rfl | watches)
    · exact ⟨Function.update_self .., attentive⟩
    · obtain ⟨runs, attends⟩ := sound.watches v watches
      refine ⟨(Function.update_of_ne (apart v watches) ..).trans runs, fun values outside stays agrees => ?_⟩
      obtain ⟨cells, outside', before, stays', changed, serves, others, ensures⟩ :=
        attends values outside stays ((agrees_add fresh).mp agrees)
      refine ⟨cells, outside', before, stays', .inl changed, serves, ?_, fun graph has => ensures graph ⟨has.cells, fun m there => ?_⟩⟩
      · rintro u (rfl | watching) other
        · exact kept outside outside' stays changed
        · exact others u watching other
      · refine has.owners m ?_
        by_cases here : m = w.id
        · simp [Scene.watched, Layout.add, here]
        · simpa [Scene.watched, Layout.add, here] using there

theorem Scene.Quiet.kept (quiet : scene.Quiet meaning values graph outside) (bears : scene.Bears outside other)
    (begins : stays other) : (scene.kept stays).Quiet meaning values graph other where
  underway := {
    woven := quiet.underway.woven
    bound := quiet.underway.bound
    order := quiet.underway.order
    react := quiet.underway.react
    fit := quiet.underway.fit
    current := quiet.underway.current
    served := fun w watches settled values same => bears.serves w watches values (quiet.underway.served w watches settled values same)
    stays := ⟨bears.stays quiet.underway.stays, begins⟩ }
  free := quiet.free
  idle := quiet.idle

theorem Scene.Poised.kept (poised : scene.Poised meaning values graph outside) (keeps : ∀ outside outside', scene.stays outside →
    stays outside → scene.changes outside outside' → stays outside') (bears : scene.Bears outside other) (begins : stays other) :
    (scene.kept stays).Poised meaning values graph other :=
  ⟨poised.sound.kept keeps, poised.numbered, poised.top, poised.quiet.kept bears begins⟩

omit [BEq ν] in
theorem Scene.reacts_watched (m : OwnerId) : (scene.watched w changes).Reacts m ↔ scene.Reacts m ∨ m = w.id := by
  unfold Scene.Reacts Scene.watched Layout.add
  by_cases here : m = w.id
  · simp [here]
  · have apart : ¬ w.id = m := fun same => here same.symm
    simp [here, apart]

theorem Scene.Poised.fresh (poised : scene.Poised meaning values graph outside) : scene.layout.bodies graph.nextId = none := by
  rw [← poised.underway.woven.bodies, poised.numbered.fresh]
  rfl

theorem Scene.Underway.begun {serves : (CellId → ν) → σ → Prop} (underway : scene.Underway meaning [] values graph outside)
    (numbered : graph.Numbered) (alive : graph.ownerAlive scope = true) (inert : ¬ scene.Reacts scope) :
    (scene.watched ⟨graph.nextId, task, serves⟩ changes).Underway meaning [graph.nextId] values
      (graph.begun (some scope) (.effect task)) outside := by
  have woven := underway.woven
  have fresh : scene.layout.bodies graph.nextId = none := by
    rw [← woven.bodies, numbered.fresh]
    rfl
  have reacts : ∀ m, (scene.watched ⟨graph.nextId, task, serves⟩ changes).Reacts m ↔ scene.Reacts m ∨ m = graph.nextId :=
    Scene.reacts_watched
  have sources := sourcesOf_begun numbered alive (.effect task)
  have old : ∀ m, scene.Reacts m → m ≠ graph.nextId ∧ m ≠ scope := by
    intro m acts
    refine ⟨(underway.bound m acts).ne, ?_⟩
    rintro rfl
    exact inert acts
  refine ⟨⟨?_, woven.shows, woven.sorted, ?_, ?_, ?_⟩, ?_, pairwise_singleton .., ?_, ?_, ?_, ?_, underway.stays⟩
  · rw [layout_begun numbered alive, woven.layout_eq]
    rfl
  · intro c slot found m
    rw [sources]
    exact woven.agree c slot found m
  · intro m c mem
    rw [sources] at mem
    obtain ⟨acts, before, computed⟩ := woven.reactive m c mem
    exact ⟨(reacts m).mpr (.inl acts), before, fun other computes => computed other ((Layout.computes_add fresh).mp computes)⟩
  · intro m o acts found
    rw [owners_begun numbered alive] at found
    split at found
    · obtain rfl := Option.some.inj found
      exact ⟨rfl, rfl, rfl⟩
    · rename_i another
      have before := ((reacts m).mp acts).resolve_right another
      rw [if_neg (old m before).2] at found
      exact woven.bare m o before found
  · intro m acts
    rcases (reacts m).mp acts with before | rfl
    · exact Nat.lt_succ_of_lt (underway.bound m before)
    · exact Nat.lt_succ_self _
  · intro m mem
    exact (reacts m).mpr (.inr (mem_singleton.mp mem))
  · intro c there signal
    exact underway.fit c there ((Layout.isSignal_add fresh).mp signal)
  · intro c other computes _
    rw [sources]
    exact underway.current c other ((Layout.computes_add fresh).mp computes) (by simp)
  · rintro v (rfl | watches) settled
    · exact absurd (mem_singleton_self _) settled
    · rw [sources]
      exact underway.served v watches (by simp)

theorem ensures_newEffect_unread {level : Nat} {post : σ → Prop} (rest : AtRest graph (some scope))
    (apart : scope ≠ graph.nextId)
    (performs : ∀ graph' : Graph P ν, graph'.ownerAlive scope = graph.ownerAlive scope →
      (meaning task).Ensures meaning level graph' outside fun _ after outside' => after = graph' ∧ post outside') :
    (perform (.newEffect task) : Program P σ ν OwnerId).Ensures meaning (level + 2) graph outside
      fun _ graph' outside' => AtRest graph' (some scope) ∧ post outside' := by
  have found : (graph.begun (some scope) (.effect task)).owners.get? graph.nextId =
      some { parent := some scope, body := some (.effect task) } := by
    show (Table.modify _ _ _).get? _ = _
    rw [Table.get?_modify, if_neg apart.symm, Table.get?_insert, if_pos rfl]
  have same : ((graph.begun (some scope) (.effect task)).opened graph.nextId []).ownerAlive scope = graph.ownerAlive scope := by
    unfold ownerAlive Table.contains
    rw [owners_opened, if_neg apart]
    show ((Table.modify _ _ _).get? _).isSome = _
    rw [Table.get?_modify, if_pos rfl, Table.get?_insert, if_neg apart, Option.isSome_map]
  have ran : Ensures (level + 2) (fun fuel => Job.run meaning fuel (.rerun graph.nextId))
      (graph.begun (some scope) (.effect task)) outside fun _ graph' outside' => graph' =
        { graph.begun (some scope) (.effect task) with cells := graph'.cells, owners := graph'.owners } ∧ post outside' := by
    refine ensures_rerun_bare found rfl ⟨rfl, rfl, rfl⟩ ((performs _ same).task.mono ?_)
    rintro _ _ _ ⟨rfl, holds⟩
    exact ⟨rfl, holds⟩
  have made : Ensures (level + 2) (fun fuel => newReaction (Job.run meaning fuel) (.effect task)) graph outside
      fun id graph' outside' => id = graph.nextId ∧ AtRest graph' (some scope) ∧ graph'.nextId = graph.nextId + 1 ∧
        post outside' := ensures_newReaction rest ran
  refine ensures_perform (made.mono ?_)
  rintro _ _ _ ⟨_, resting, _, holds⟩
  exact ⟨resting, holds⟩

theorem Scene.Poised.join {serves : (CellId → ν) → σ → Prop} (poised : scene.Poised meaning values graph outside)
    (alive : graph.ownerAlive scope = true) (inert : ¬ scene.Reacts scope) (under : graph.owner = some scope)
    (sound : (scene.watched ⟨graph.nextId, task, serves⟩ changes).Sound meaning) :
    (perform (.newEffect task) : Program P σ ν OwnerId).Attains meaning graph outside fun _ graph' outside' =>
      ∃ values', (scene.watched ⟨graph.nextId, task, serves⟩ changes).Poised meaning values' graph' outside' ∧
        (∀ c, scene.layout.cells c = true → scene.layout.IsSignal c → values' c = values c) ∧
        ∀ m, (graph'.owners.get? m).map Owner.still =
          ((graph.begun (some scope) (.effect task)).owners.get? m).map Owner.still := by
  have numbered := poised.numbered
  have woven := poised.underway.woven
  have fresh := poised.fresh
  have begun : (scene.watched ⟨graph.nextId, task, serves⟩ changes).Underway meaning [graph.nextId] values
      (graph.begun (some scope) (.effect task)) outside := poised.underway.begun numbered alive inert
  refine attains_perform ?_
  simp only [Run.command, Run.newReaction]
  have made : Attains (fun _ => Run.changeGraph fun graph : Graph P ν => graph.newOwner graph.owner (some (.effect task)))
      graph outside fun made graph' outside' => made = graph.nextId ∧
        graph' = (graph.newOwner (some scope) (some (.effect task))).2 ∧ outside' = outside := by
    rw [← under]
    exact Ensures.attains 0 (fun _ history _ => ⟨_, _, _, history, rfl, rfl, rfl, rfl⟩) ⟨rfl, rfl, rfl⟩
  refine made.bind ?_
  rintro _ _ _ ⟨rfl, rfl, rfl⟩
  refine Attains.bind (Attains.inBatch (begun.rerun_watcher sound (.inl rfl) (poised.quiet.idle poised.top)) ?_)
    fun _ _ _ holds => .pure holds
  rintro _ graph' outside' ⟨values', underway, _, signals, steady⟩
  have ended : (scene.watched ⟨graph.nextId, task, serves⟩ changes).Underway meaning
      ({ graph' with batchDepth := graph'.batchDepth - 1 } : Graph P ν).queue values'
      { graph' with batchDepth := graph'.batchDepth - 1 } outside' := underway.congr (fun _ => rfl) rfl rfl
  have free : graph'.flushing = false := by rw [steady.eq]; exact poised.quiet.free
  refine (ended.release sound free).mono ?_
  rintro _ last _ ⟨values'', quiet', after, steady'⟩
  have nextId : last.nextId = graph.nextId + 1 := by
    rw [steady'.eq, steady.eq]
    rfl
  refine ⟨values'', ⟨sound, ⟨fun c there => ?_, fun m there => ?_⟩, ?_, quiet'⟩, fun c there signal => ?_, fun m => ?_⟩
  · rw [quiet'.underway.woven.cellAlive] at there
    rw [nextId]
    exact Nat.lt_succ_of_lt (numbered.cells c ((woven.cellAlive c).trans there))
  · rw [quiet'.underway.woven.ownerAlive] at there
    rw [nextId]
    by_cases here : m = graph.nextId
    · rw [here]
      exact Nat.lt_succ_self _
    · have old : (scene.layout.add graph.nextId (.effect task)).bodies m = scene.layout.bodies m :=
        Function.update_of_ne here ..
      exact Nat.lt_succ_of_lt (numbered.owners m ((woven.ownerAlive m).trans (old ▸ there)))
  · rw [steady'.eq, steady.eq]
    exact poised.top
  · have signal' : (scene.layout.add graph.nextId (.effect task)).IsSignal c := (Layout.isSignal_add fresh).mpr signal
    exact (after c there signal').trans (signals c signal')
  · exact (steady'.same m).trans (steady.same m)

end Joining

section Leaving

variable {layout : Layout P ν} {reacts : OwnerId → Prop} {values : CellId → ν} {graph next : Graph P ν} {scope m : OwnerId}
  {owners gone : List OwnerId} {tasks : List (P Unit)}

def Layout.without (layout : Layout P ν) (owners : List OwnerId) (cells : List CellId) : Layout P ν where
  cells c := layout.cells c && !cells.contains c
  bodies m := if m ∈ owners then none else layout.bodies m

theorem Layout.bodies_without (kept : m ∉ owners) (cells : List CellId) :
    (layout.without owners cells).bodies m = layout.bodies m :=
  if_neg kept

theorem Layout.without_add {id : OwnerId} {body : Body P ν} (fresh : layout.bodies id = none) (owners : List OwnerId)
    (cells : List CellId) : (layout.add id body).without (id :: owners) cells = layout.without owners cells := by
  unfold without add
  congr 1
  funext m
  by_cases here : m = id
  · simp [here, fresh]
  · simp [here]

theorem Layout.Computes.of_without {cells : List CellId} {cell : CellId} {task : P ν}
    (computes : (layout.without owners cells).Computes cell task) : cell + 1 ∉ owners ∧ layout.Computes cell task := by
  by_cases gone : cell + 1 ∈ owners
  · simp [Layout.Computes, Layout.without, gone] at computes
  · exact ⟨gone, by simpa [Layout.Computes, Layout.without, gone] using computes⟩

theorem Graph.Rid.sourcesOf (rid : graph.Rid gone graph next) (m : OwnerId) :
    next.sourcesOf m = if m ∈ gone then [] else graph.sourcesOf m := by
  unfold Graph.sourcesOf
  rw [rid.owners]
  split
  · rfl
  · rw [Option.map_map]
    rfl

theorem Graph.Rid.layout_eq (rid : graph.Rid gone graph next) : next.layout = graph.layout.without gone (graph.cellsOf gone) := by
  unfold layout Layout.without cellAlive Table.contains
  congr 1
  · funext c
    rw [rid.cells]
    split <;> simp [*]
  · funext m
    rw [rid.owners]
    split
    · rfl
    · rw [Option.map_map]
      rfl

theorem Graph.Rid.slot (rid : graph.Rid gone graph next) {c : CellId} {slot : Cell ν} (found : next.cells.get? c = some slot) :
    ∃ old, graph.cells.get? c = some old ∧ slot = { old with subscribers := old.subscribers.filter (· ∉ gone) } := by
  rw [rid.cells] at found
  split at found
  · cases found
  · obtain ⟨old, there, rfl⟩ := Option.map_eq_some_iff.mp found
    exact ⟨old, there, rfl⟩

theorem Woven.rid (woven : Woven layout reacts values graph) (rid : graph.Rid gone graph next) :
    Woven (layout.without gone (graph.cellsOf gone)) (fun m => reacts m ∧ m ∉ gone) values next where
  layout_eq := by rw [rid.layout_eq, woven.layout_eq]
  shows c slot found := by
    obtain ⟨old, there, rfl⟩ := rid.slot found
    exact woven.shows c old there
  sorted c slot found := by
    obtain ⟨old, there, rfl⟩ := rid.slot found
    exact (woven.sorted c old there).filter _
  agree c slot found m := by
    obtain ⟨old, there, rfl⟩ := rid.slot found
    rw [rid.sourcesOf, mem_filter, woven.agree c old there]
    by_cases goes : m ∈ gone <;> simp [goes]
  reactive m c mem := by
    rw [rid.sourcesOf] at mem
    split at mem
    · cases mem
    · obtain ⟨acts, before, computed⟩ := woven.reactive m c mem
      exact ⟨⟨acts, ‹_›⟩, before, fun task computes => computed task computes.of_without.2⟩
  bare m o acts found := by
    rw [rid.owners, if_neg acts.2] at found
    obtain ⟨old, there, rfl⟩ := Option.map_eq_some_iff.mp found
    obtain ⟨childless, bare⟩ := woven.bare m old acts.1 there
    exact ⟨by simp [childless], bare⟩

theorem Woven.sources (woven : Woven layout reacts values graph) (gone : List OwnerId) : graph.Sources graph gone := by
  intro e _ o found c slot there reads
  simpa [sourcesOf, found] using (woven.agree c slot there e).mp reads

/-- What remains of a scene without some owners and cells. -/
structure Scene.Leaves (scene rest : Scene P σ ν) (gone : List OwnerId) (dropped : List CellId) : Prop where
  layout_eq : rest.layout = scene.layout.without gone dropped
  fits_eq : rest.fits = scene.fits
  holds_eq : rest.holds = scene.holds
  watchers : ∀ w, w ∈ rest.watchers ↔ w ∈ scene.watchers ∧ w.id ∉ gone
  /-- What computes a cell does not go without it. -/
  whole : ∀ cell task, scene.layout.Computes cell task → cell + 1 ∈ gone → cell ∈ dropped

variable [BEq ν] {meaning : Interpretation P σ ν} {outside other : σ} {scene rest : Scene P σ ν}

omit [BEq ν] in
theorem Scene.Leaves.reacts_iff {dropped : List CellId} (leaves : scene.Leaves rest gone dropped) (m : OwnerId) :
    rest.Reacts m ↔ scene.Reacts m ∧ m ∉ gone := by
  unfold Scene.Reacts
  rw [leaves.layout_eq]
  constructor
  · rintro (⟨cell, task, runs⟩ | ⟨w, watches, rfl⟩)
    · by_cases goes : m ∈ gone
      · simp [Layout.without, goes] at runs
      · exact ⟨.inl ⟨cell, task, (Layout.bodies_without goes dropped).symm.trans runs⟩, goes⟩
    · obtain ⟨there, stays⟩ := (leaves.watchers w).mp watches
      exact ⟨.inr ⟨w, there, rfl⟩, stays⟩
  · rintro ⟨⟨cell, task, runs⟩ | ⟨w, watches, rfl⟩, stays⟩
    · exact .inl ⟨cell, task, (Layout.bodies_without stays dropped).trans runs⟩
    · exact .inr ⟨w, (leaves.watchers w).mpr ⟨watches, stays⟩, rfl⟩

/-- A scene without some owners and cells. -/
def Scene.without (scene : Scene P σ ν) (gone : List OwnerId) (dropped : List CellId) : Scene P σ ν :=
  { scene with layout := scene.layout.without gone dropped, watchers := {w | w ∈ scene.watchers ∧ w.id ∉ gone} }

omit [BEq ν] in
theorem Scene.without_watched {w : Watcher P σ ν} {changes : σ → σ → Prop} (fresh : scene.layout.bodies w.id = none)
    (old : ∀ v ∈ scene.watchers, v.id ≠ w.id) (dropped : List CellId) :
    (scene.watched w changes).without (w.id :: gone) dropped =
      { scene.without gone dropped with changes := fun outside outside' => scene.changes outside outside' ∨ changes outside outside' } := by
  unfold Scene.without Scene.watched
  rw [Layout.without_add fresh]
  congr 1
  ext v
  constructor
  · rintro ⟨rfl | watches, stays⟩
    · simp at stays
    · exact ⟨watches, fun mem => stays (mem_cons_of_mem _ mem)⟩
  · rintro ⟨watches, stays⟩
    exact ⟨.inr watches, by simp [old v watches, stays]⟩

theorem Scene.Sound.widen (sound : scene.Sound meaning) (changes : σ → σ → Prop) :
    ({ scene with changes := fun outside outside' => scene.changes outside outside' ∨ changes outside outside' } :
      Scene P σ ν).Sound meaning where
  steady := sound.steady
  plain := sound.plain
  once := sound.once
  watches w watches := by
    obtain ⟨runs, attentive⟩ := sound.watches w watches
    refine ⟨runs, fun values outside stays agrees => ?_⟩
    obtain ⟨cells, outside', before, stays', changed, rest⟩ := attentive values outside stays agrees
    exact ⟨cells, outside', before, stays', .inl changed, rest⟩

/-- What goes with a scope, and that the rest does without it. The cleanups do to what is outside only what may happen there
anyway, and spoil nothing. -/
structure Scene.Sheds (meaning : Interpretation P σ ν) (scene : Scene P σ ν) (level : Nat) (graph : Graph P ν)
    (scope : OwnerId) (gone : List OwnerId) (tasks : List (P Unit)) : Prop where
  sweep : graph.Sweep [scope] gone tasks
  once : gone.Nodup
  named : graph.Named
  whole : ∀ cell task, scene.layout.Computes cell task → cell + 1 ∈ gone → cell ∈ graph.cellsOf gone
  sound : (scene.without gone (graph.cellsOf gone)).Sound meaning
  asides : ∀ task ∈ tasks, Aside meaning level
    (fun _ outside outside' => scene.stays outside → scene.changes outside outside' ∧ scene.Bears outside outside') task

omit [BEq ν] in
theorem InTurn.spoils_nothing {stays : σ → Prop} (turns : InTurn (fun _ outside outside' =>
      scene.stays outside → scene.changes outside outside' ∧ scene.Bears outside outside') tasks outside other)
    (keeps : ∀ outside outside', scene.stays outside → stays outside → scene.changes outside outside' → stays outside')
    (begins : scene.stays outside ∧ stays outside) : (scene.stays other ∧ stays other) ∧
      ∀ w ∈ scene.watchers, ∀ values, w.serves values outside → w.serves values other := by
  induction turns with
  | nil => exact ⟨begins, fun _ _ _ served => served⟩
  | cons done _ ih =>
    obtain ⟨changed, bears⟩ := done begins.1
    obtain ⟨both, serves⟩ := ih ⟨bears.stays begins.1, keeps _ _ begins.1 begins.2 changed⟩
    exact ⟨both, fun w watches values served => serves w watches values (bears.serves w watches values served)⟩

theorem Scene.Underway.rid (underway : scene.Underway meaning [] values graph outside) (rid : graph.Rid gone graph next)
    (leaves : scene.Leaves rest gone (graph.cellsOf gone)) (stays : rest.stays other)
    (serves : ∀ w ∈ rest.watchers, ∀ values, w.serves values outside → w.serves values other) :
    rest.Underway meaning [] values next other := by
  have woven := underway.woven.rid rid
  have reacts : rest.Reacts = fun m => scene.Reacts m ∧ m ∉ gone := funext fun m => propext (leaves.reacts_iff m)
  have kept : ∀ m ∉ gone, next.sourcesOf m = graph.sourcesOf m := fun m stays => (rid.sourcesOf m).trans (if_neg stays)
  rw [← leaves.layout_eq, ← reacts] at woven
  refine ⟨woven, fun m acts => ?_, .nil, by simp, fun c there signal => ?_, fun c task computes _ => ?_,
    fun w watches _ values same => ?_, stays⟩
  · rw [rid.frame]
    exact underway.bound m ((leaves.reacts_iff m).mp acts).1
  · rw [leaves.layout_eq] at there signal
    simp only [Layout.without, Bool.and_eq_true, Bool.not_eq_true', contains_eq_mem, decide_eq_false_iff_not] at there
    rw [leaves.fits_eq]
    refine underway.fit c there.1 fun task computes => ?_
    by_cases goes : c + 1 ∈ gone
    · exact there.2 (leaves.whole c task computes goes)
    · exact signal task ((Layout.bodies_without goes _).trans computes)
  · rw [leaves.layout_eq] at computes
    obtain ⟨remains, computed⟩ := computes.of_without
    rw [kept _ remains, leaves.holds_eq]
    exact underway.current c task computed (by simp)
  · obtain ⟨there, remains⟩ := (leaves.watchers w).mp watches
    rw [kept _ remains] at same
    exact serves w watches values (underway.served w there (by simp) values same)

theorem Scene.Poised.dispose {level : Nat} {does : P Unit → σ → σ → Prop} (poised : scene.Poised meaning values graph outside)
    (sweep : graph.Sweep [scope] gone tasks) (once : gone.Nodup) (named : graph.Named)
    (asides : ∀ task ∈ tasks, Aside meaning level does task) (leaves : scene.Leaves rest gone (graph.cellsOf gone))
    (sound : rest.Sound meaning) (stays : ∀ other, InTurn does tasks outside other → rest.stays other ∧
      ∀ w ∈ rest.watchers, ∀ values, w.serves values outside → w.serves values other) :
    (perform (.dispose scope) : Program P σ ν Unit).Attains meaning graph outside fun _ graph' outside' =>
      rest.Poised meaning values graph' outside' ∧ InTurn does tasks outside outside' := by
  refine (ensures_dispose_sweep sweep once named (poised.underway.woven.sources gone) asides).attained.mono ?_
  rintro _ next outside' ⟨rid, turns⟩
  obtain ⟨keeps, serves⟩ := stays outside' turns
  have empty : next.queue = [] := by rw [rid.queue_eq, poised.quiet.idle poised.top, filter_nil]
  have underway := poised.underway.rid rid leaves keeps serves
  have has : graph.Has next.layout := by
    rw [rid.layout_eq]
    refine ⟨fun c there => ?_, fun m there => ?_⟩
    · exact (Bool.and_eq_true _ _ ▸ there : _ ∧ _).1
    · rw [ownerAlive_eq]
      by_cases goes : m ∈ gone
      · simp [Layout.without, goes] at there
      · rwa [Layout.bodies_without goes] at there
  refine ⟨⟨sound, poised.numbered.of_has has (by rw [rid.frame]), ?_, ⟨empty ▸ underway, ?_, fun _ => empty⟩⟩, turns⟩
  · rw [rid.frame]
    exact poised.top
  · rw [rid.frame]
    exact poised.quiet.free

end Leaving

section Families

variable {graph next : Graph P ν} {scope : OwnerId} {es gone : List OwnerId} {tasks : List (P Unit)}

theorem still_eq_some {o : Owner P ν} {m : OwnerId}
    (same : (next.owners.get? m).map Owner.still = (graph.owners.get? m).map Owner.still) (found : graph.owners.get? m = some o) :
    ∃ sources, next.owners.get? m = some { o with sources } := by
  rw [found] at same
  obtain ⟨p, there, still⟩ := Option.map_eq_some_iff.mp same
  refine ⟨p.sources, there.trans (congrArg some ?_)⟩
  cases p
  cases o
  simp only [Owner.still, Owner.mk.injEq] at still ⊢
  simp [still]

theorem Graph.Sweep.still (sweep : graph.Sweep es gone tasks)
    (same : ∀ e ∈ gone, (next.owners.get? e).map Owner.still = (graph.owners.get? e).map Owner.still) :
    next.Sweep es gone tasks := by
  induction sweep with
  | nil => exact .nil
  | cons found _ _ below beside =>
    obtain ⟨_, there⟩ := still_eq_some (same _ (by simp)) found
    have step := Graph.Sweep.cons there (below fun e mem => same e (by simp [mem])) (beside fun e mem => same e (by simp [mem]))
    exact step

theorem Graph.Named.still (named : graph.Named)
    (same : ∀ m, (next.owners.get? m).map Owner.still = (graph.owners.get? m).map Owner.still) : next.Named := by
  intro p q found e mem
  obtain ⟨_, there⟩ := still_eq_some (same p).symm found
  obtain ⟨o, child, parent⟩ := named p _ there e mem
  obtain ⟨_, child'⟩ := still_eq_some (same e) child
  exact ⟨_, child', parent⟩

theorem Graph.cellsOf_still (same : ∀ e ∈ gone, (next.owners.get? e).map Owner.still = (graph.owners.get? e).map Owner.still) :
    next.cellsOf gone = graph.cellsOf gone := by
  refine flatMap_congr fun e mem => ?_
  have still := congrArg (Option.map Owner.cells) (same e mem)
  rw [Option.map_map, Option.map_map] at still
  exact congrArg (Option.getD · []) still

variable {body : Body P ν} (numbered : graph.Numbered) (alive : graph.ownerAlive scope = true)
include numbered alive

theorem Graph.Named.begun (named : graph.Named) : (graph.begun (some scope) body).Named := by
  have born : ∀ e o, graph.owners.get? e = some o → ∃ children, (graph.begun (some scope) body).owners.get? e =
      some { o with children } := by
    intro e o found
    have apart : e ≠ graph.nextId := (numbered.owners e (Option.isSome_iff_exists.mpr ⟨o, found⟩)).ne
    rw [owners_begun numbered alive, if_neg apart, found]
    split
    · exact ⟨_, rfl⟩
    · exact ⟨o.children, rfl⟩
  intro p q found e mem
  rw [owners_begun numbered alive] at found
  split at found
  · cases found
    cases mem
  · split at found
    · obtain ⟨old, there, rfl⟩ := Option.map_eq_some_iff.mp found
      rcases mem_append.mp mem with listed | new
      · obtain ⟨o, child, parent⟩ := named p old there e listed
        obtain ⟨_, born⟩ := born e o child
        exact ⟨_, born, parent⟩
      · rename_i here
        refine ⟨{ parent := some scope, body := some body }, ?_, congrArg some here.symm⟩
        rw [owners_begun numbered alive, if_pos (mem_singleton.mp new)]
    · obtain ⟨o, child, parent⟩ := named p q found e mem
      obtain ⟨_, born⟩ := born e o child
      exact ⟨_, born, parent⟩

theorem Graph.Sweep.begun (sweep : graph.Sweep [scope] gone tasks) (once : gone.Nodup) :
    (graph.begun (some scope) body).Sweep [scope] (graph.nextId :: gone) tasks ∧
      (graph.begun (some scope) body).cellsOf (graph.nextId :: gone) = graph.cellsOf gone := by
  have fresh : ∀ e ∈ gone, e ≠ graph.nextId := by
    intro e mem
    obtain ⟨o, there, _⟩ := sweep.closed mem
    exact (numbered.owners e (Option.isSome_iff_exists.mpr ⟨o, there⟩)).ne
  have owners := owners_begun numbered alive body
  constructor
  · cases sweep with
    | @cons _ o _ below _ inner _ found under nothing =>
      cases nothing
      have apart : ∀ e ∈ below, e ≠ scope := fun e mem => (nodup_append.mp once).2.2 e mem scope (by simp)
      have under' : (graph.begun (some scope) body).Sweep o.children.reverse below inner := under.still fun e mem => by
        rw [owners, if_neg (fresh e (by simp [mem])), if_neg (apart e mem)]
      have own : (graph.begun (some scope) body).owners.get? scope =
          some { o with children := o.children ++ [graph.nextId] } := by
        rw [owners, if_neg (fresh scope (by simp)), if_pos rfl, found]
        rfl
      have new : (graph.begun (some scope) body).owners.get? graph.nextId =
          some { parent := some scope, body := some body } := by rw [owners, if_pos rfl]
      have children : (graph.begun (some scope) body).Sweep (o.children ++ [graph.nextId]).reverse (graph.nextId :: below) inner := by
        rw [reverse_append]
        exact .cons new .nil under'
      simpa using Graph.Sweep.cons own children .nil
  · rw [Graph.cellsOf, flatMap_cons, owners, if_pos rfl]
    refine flatMap_congr fun e mem => ?_
    rw [owners, if_neg (fresh e mem)]
    split
    · cases graph.owners.get? e <;> rfl
    · rfl

end Families

end LiveMarkup.Reactive
