import LiveMarkup.Proofs.Networks

/-!
Rounds of reactions in a network. A write queues whoever has read the signal; then the first that waits runs, again and
again, until none is left. `Pending` holds all the while: whoever does not wait is settled, and so what is before the
first that waits is up to date. A reaction can therefore queue only later ones, and no reaction runs twice.
-/

namespace LiveMarkup.Reactive
open List Function Prod Program Run Reactive.Graph Nat

variable {ν : Type} {net : Net ν} {reads : Nat → List Nat} {graph : Graph (Task ν) ν} {log : Log ν} {values : Nat → ν}
  {i level : Nat}

def sourcesIn (log : Log ν) (i : Nat) : List Nat := ((lastSeen i log).getD []).map Prod.fst

theorem lastSeen_cons_self (seen : List (Nat × ν)) : lastSeen i (⟨i, seen⟩ :: log) = some seen := by
  simp [lastSeen]

theorem lastSeen_cons_of_ne {k : Nat} (differs : k ≠ i) (seen : List (Nat × ν)) :
    lastSeen k (⟨i, seen⟩ :: log) = lastSeen k log := by
  have apart : ¬ i = k := fun same => differs same.symm
  simp [lastSeen, apart]

theorem sourcesIn_cons (seen : List (Nat × ν)) :
    sourcesIn (⟨i, seen⟩ :: log) = update (sourcesIn log) i (seen.map fst) := by
  funext k
  by_cases same : k = i
  · subst same
    rw [sourcesIn, lastSeen_cons_self, update_self]
    rfl
  · rw [sourcesIn, lastSeen_cons_of_ne same, update_of_ne same, sourcesIn]

section Running

variable [BEq ν] {post : Graph (Task ν) ν → Log ν → Prop} {d : Definition ν} {id : OwnerId} {α : Type}

theorem ensures_program (f : Reader ν α) (laid : Laid net reads graph) (reacts : net.Reacts i)
    (observer : graph.observer = some (net.reactor i)) (within : f.Within fun j => j < i ∧ net.Holds j)
    (held : ∀ j < i, net.Holds j → graph.valueOf (net.handle j) = some (values j)) (seen : List (Nat × ν)) :
    (f.program (net.handles.take i) seen).Ensures Task.meaning level graph log fun result graph' log' =>
      result = (f.eval values, seen ++ f.seen values) ∧
        Laid net (update reads i (reads i ++ (f.seen values).map fst)) graph' ∧
        graph' = { graph with cells := graph'.cells, owners := graph'.owners } ∧
        (∀ c, graph'.valueOf c = graph.valueOf c) ∧ log' = log := by
  induction f generalizing graph reads seen with
  | give =>
    refine ensures_pure ⟨?_, ?_, rfl, fun _ => rfl, rfl⟩
    · simp [Reader.eval, Reader.seen]
    · simpa [Reader.seen] using laid
  | read source _ ih =>
    obtain ⟨⟨before, holds⟩, later⟩ := within
    have place : (net.handles.take i).getD source 0 = net.handle source := by
      simp [Net.handle, getD, before]
    have tracked := laid.track reacts holds observer
    obtain ⟨slot, found, readers⟩ := tracked.cell holds
    have shown : slot.value = some (values source) := by
      have value := (graph.valueOf_track (net.handle source) (net.handle source)).trans (held source before holds)
      rw [valueOf, found] at value
      exact value
    unfold Reader.program
    rw [place]
    refine (ensures_get_slot found readers.free shown).bind ?_
    rintro _ _ _ ⟨rfl, rfl, rfl⟩
    have frame := graph.track_eq (net.handle source)
    have watching : (graph.track (net.handle source)).observer = some (net.reactor i) := by
      rw [frame]
      exact observer
    refine (ih (values source) tracked watching (later _)
      (fun j less holding => (graph.valueOf_track _ _).trans (held j less holding)) _).mono ?_
    rintro _ _ _ ⟨rfl, laid', same, kept, rfl⟩
    refine ⟨?_, ?_, ?_, fun c => (kept c).trans (graph.valueOf_track _ _), rfl⟩
    · simp [Reader.eval, Reader.seen]
    · simpa [Reader.seen] using laid'
    · rw [same, frame]

theorem ensures_function {f : Reader ν α} (laid : Laid net reads graph) (reacts : net.Reacts i)
    (observer : graph.observer = some (net.reactor i)) (within : f.Within fun j => j < i ∧ net.Holds j)
    (held : ∀ j < i, net.Holds j → graph.valueOf (net.handle j) = some (values j)) :
    Ensures (level + 1) (fun fuel => Job.run Task.meaning fuel (.perform ⟨i, net.handles.take i, f⟩)) graph log
      fun result graph' log' => result = f.eval values ∧
        Laid net (update reads i (reads i ++ (f.seen values).map fst)) graph' ∧
        graph' = { graph with cells := graph'.cells, owners := graph'.owners } ∧
        (∀ c, graph'.valueOf c = graph.valueOf c) ∧ log' = ⟨i, f.seen values⟩ :: log := by
  refine Program.Ensures.task ?_
  refine (ensures_program f laid reacts observer within held []).bind ?_
  rintro _ _ _ ⟨rfl, laid', same, kept, rfl⟩
  refine altering_then (ensures_pure ⟨rfl, laid', same, kept, ?_⟩)
  simp

theorem ensures_rerun_of {body : Body (Task ν) ν} (laid : Laid net reads graph) (reacts : net.Reacts i)
    (what : net.body i = some body)
    (inner : ∀ sources, Laid net (update reads i []) (graph.opened (net.reactor i) sources) →
      Ensures level (fun fuel => runBody (Job.run Task.meaning fuel) body) (graph.opened (net.reactor i) sources) log
        fun _ graph' log' => post { graph' with owner := graph.owner, observer := graph.observer } log') :
    Ensures (level + 1) (fun fuel => Job.run Task.meaning fuel (.rerun (net.reactor i))) graph log
      fun _ graph' log' => post graph' log' := by
  obtain ⟨o, found, knows⟩ := laid.owner reacts
  refine .job ?_
  simp only [Job.step, rerun]
  refine .see ?_
  rw [found, Option.bind_some, knows.body_eq, what]
  refine (ensures_clean found knows.children_eq knows.cleanups_eq).bind ?_
  rintro _ _ _ ⟨rfl, rfl⟩
  refine .note (.inContext ?_)
  rw [knows.cells_eq]
  exact inner o.sources (laid.opened reacts found knows)

theorem ensures_rerun_effect {f : Reader ν Unit} (laid : Laid net reads graph) (place : net.reactor i = id)
    (found : net.defs[i]? = some (.effect f)) (within : f.Within fun j => j < i ∧ net.Holds j)
    (held : ∀ j < i, net.Holds j → graph.valueOf (net.handle j) = some (values j)) :
    Ensures 2 (fun fuel => Job.run Task.meaning fuel (.rerun id)) graph log fun _ graph' log' =>
      Laid net (update reads i ((f.seen values).map fst)) graph' ∧
        (∀ c, graph'.valueOf c = graph.valueOf c) ∧
        graph' = { graph with cells := graph'.cells, owners := graph'.owners } ∧ log' = ⟨i, f.seen values⟩ :: log := by
  subst place
  have reacts : net.Reacts i := ⟨_, found, rfl⟩
  have what : net.body i = some (.effect ⟨i, net.handles.take i, f⟩) := by simp [Net.body, found]
  refine ensures_rerun_of laid reacts what fun sources opened => ?_
  refine (ensures_function opened reacts rfl within fun j before holds =>
    (graph.valueOf_opened ..).trans (held j before holds)).mono ?_
  rintro _ _ _ ⟨-, laid', same, kept, rfl⟩
  rw [update_self, nil_append, update_idem] at laid'
  refine ⟨laid'.congr rfl rfl rfl, fun c => (kept c).trans (graph.valueOf_opened ..), ?_, rfl⟩
  rw [same]
  rfl

theorem ensures_rerun_computed {f : Reader ν ν} (laid : Laid net reads graph) (place : net.reactor i = id)
    (found : net.defs[i]? = some (.computed f)) (within : f.Within fun j => j < i ∧ net.Holds j)
    (held : ∀ j < i, net.Holds j → graph.valueOf (net.handle j) = some (values j))
    (finish : ∀ graph' slot, Laid net (update reads i ((f.seen values).map fst)) graph' →
      (∀ c, graph'.valueOf c = graph.valueOf c) →
      graph' = { graph with
        cells := graph'.cells, owners := graph'.owners, owner := graph'.owner, observer := graph'.observer } →
      graph'.cells.get? (net.handle i) = some slot → slot.inUse = false →
      Ensures 1 (fun fuel => match slot.value with
          | none => store (net.handle i) (f.eval values)
          | some old =>
            if old == f.eval values then pure ()
            else write (Job.run Task.meaning fuel) (net.handle i) (f.eval values))
        graph' (⟨i, f.seen values⟩ :: log)
        fun _ graph'' log' => post { graph'' with owner := graph.owner, observer := graph.observer } log') :
    Ensures 2 (fun fuel => Job.run Task.meaning fuel (.rerun id)) graph log
      fun _ graph' log' => post graph' log' := by
  subst place
  have reacts : net.Reacts i := ⟨_, found, rfl⟩
  have holds : net.Holds i := ⟨_, found, rfl⟩
  have what : net.body i = some (.computed (net.handle i) ⟨i, net.handles.take i, f⟩) := by simp [Net.body, found]
  refine ensures_rerun_of laid reacts what fun sources opened => ?_
  unfold runBody
  refine (ensures_function opened reacts rfl within fun j before holds =>
    (graph.valueOf_opened ..).trans (held j before holds)).bind ?_
  rintro _ graph' _ ⟨rfl, laid', same, kept, rfl⟩
  rw [update_self, nil_append, update_idem] at laid'
  obtain ⟨slot, there, readers⟩ := laid'.cell holds
  have frame : graph' = { graph with
      cells := graph'.cells, owners := graph'.owners, owner := graph'.owner, observer := graph'.observer } := by
    rw [same]
    rfl
  have finished := finish graph' slot laid' (fun c => (kept c).trans (graph.valueOf_opened ..)) frame there readers.free
  refine .see ?_
  rw [there]
  dsimp only
  rw [readers.free]
  exact finished

structure Reran (net : Net ν) (reads : Nat → List Nat) (i : Nat) (d : Definition ν) (values : Nat → ν)
    (graph graph' : Graph (Task ν) ν) : Prop where
  laid : Laid net (Function.update reads i ((d.seen values).map Prod.fst)) graph'
  stored : Stored net graph' (d.refresh i values)
  sorted : graph'.queue.Pairwise (· < ·)
  mem_queue : ∀ e, e ∈ graph'.queue ↔ e ∈ graph.queue ∨ d.refresh i values i ≠ values i ∧
    ∃ k, net.Reacts k ∧ e = net.reactor k ∧ i ∈ Function.update reads i ((d.seen values).map Prod.fst) k
  frame : graph' = { graph with cells := graph'.cells, owners := graph'.owners, queue := graph'.queue }

omit [BEq ν] in
theorem Reran.unchanged {graph' : Graph (Task ν) ν}
    (laid : Laid net (update reads i ((d.seen values).map fst)) graph') (stored : Stored net graph' values)
    (sorted : graph.queue.Pairwise (· < ·)) (idle : d.refresh i values i = values i)
    (frame : graph' = { graph with cells := graph'.cells, owners := graph'.owners }) :
    Reran net reads i d values graph graph' := by
  have queue : graph'.queue = graph.queue := by rw [frame]
  refine ⟨laid, ?_, queue ▸ sorted, fun e => ?_, ?_⟩
  · rwa [Definition.refresh_eq_self idle]
  · simp [queue, idle]
  · rw [frame]

theorem ensures_rerun_flushing [LawfulBEq ν] (laid : Laid net reads graph) (found : net.defs[i]? = some d)
    (acts : d.reacts = true) (within : d.Within fun j => j < i ∧ net.Holds j) (stored : Stored net graph values)
    (sorted : graph.queue.Pairwise (· < ·)) (flushing : graph.flushing = true) :
    Ensures 2 (fun fuel => Job.run Task.meaning fuel (.rerun (net.reactor i))) graph log
      fun _ graph' log' => Reran net reads i d values graph graph' ∧ log' = ⟨i, d.seen values⟩ :: log := by
  cases d with
  | signal => cases acts
  | effect =>
    refine (ensures_rerun_effect laid rfl found within fun j _ holds => stored j holds).mono ?_
    rintro _ _ _ ⟨laid', kept, frame, rfl⟩
    exact ⟨.unchanged laid' (fun j holds => (kept _).trans (stored j holds)) sorted rfl frame, rfl⟩
  | computed f =>
    have holds : net.Holds i := ⟨_, found, rfl⟩
    refine ensures_rerun_computed laid rfl found within (fun j _ holds => stored j holds) ?_
    intro graph' slot laid' kept frame there free
    have holding : Stored net graph' values := fun j held => (kept _).trans (stored j held)
    have shown : slot.value = some (values i) := by
      have value := holding i holds
      rw [valueOf, there] at value
      exact value
    rw [shown]
    dsimp only
    by_cases equal : values i = f.eval values
    · simp only [beq_iff_eq, equal, if_true]
      have idle : Definition.refresh i values (.computed f) i = values i := by simp [Definition.refresh, equal]
      refine .pure ⟨.unchanged (laid'.congr rfl rfl rfl) holding sorted idle ?_, rfl⟩
      rw [frame]
    · simp only [beq_iff_eq, equal, if_false]
      have busy : graph'.flushing = true := by
        rw [frame]
        exact flushing
      have queue : graph'.queue = graph.queue := by rw [frame]
      refine (ensures_put_flushing there free busy).mono ?_
      rintro _ _ _ ⟨rfl, rfl⟩
      refine ⟨⟨laid'.put.congr rfl rfl rfl, holding.put laid' holds, pairwise_put (queue ▸ sorted), ?_, ?_⟩, rfl⟩
      · intro e
        have changes : Definition.refresh i values (.computed f) i ≠ values i := by
          simpa [Definition.refresh] using fun same => equal same.symm
        refine (laid'.mem_put holds e).trans ?_
        rw [queue]
        simp only [changes, ne_eq, not_false_eq_true, true_and]
        rfl
      · rw [put_eq, frame]

end Running

section Rounds

/-- What the function of a definition reads when everything has the given values. -/
def observation (defs : List (Definition ν)) (values : Nat → ν) (i : Nat) : Observation ν :=
  ⟨i, (defs[i]?.map (·.seen values)).getD []⟩

/-- The latest run of a function has read a signal that was written, or a computed value that has changed since. -/
def Prompted (defs : List (Definition ν)) (log : Log ν) (writes : List (Nat × ν)) (new : Nat → ν) (i : Nat) : Prop :=
  ∃ seen, lastSeen i log = some seen ∧ ∃ entry ∈ seen, entry.1 ∈ writes.map Prod.fst ∨
    (∃ f, defs[entry.1]? = some (.computed f)) ∧ entry.2 ≠ new entry.1

/-- The state while reactions are being run. Those at places from `floor` on have not run yet; whoever does not wait is
settled, that is, computing it again would change nothing. -/
structure Pending (net : Net ν) (old new : Nat → ν) (writes : List (Nat × ν)) (start : Log ν) (floor : Nat)
    (values : Nat → ν) (graph : Graph (Task ν) ν) (log : Log ν) : Prop where
  laid : Laid net (sourcesIn log) graph
  stored : Stored net graph values
  sorted : graph.queue.Pairwise (· < ·)
  signals : ∀ i value, net.defs[i]? = some (.signal value) → values i = new i
  computed : ∀ i f, floor ≤ i → net.defs[i]? = some (.computed f) → values i = old i
  started : ∀ i d, net.defs[i]? = some d → d.reacts = true → lastSeen i start = some (d.seen old)
  later : ∀ i, floor ≤ i → lastSeen i log = lastSeen i start
  settled : ∀ i d, net.defs[i]? = some d → d.reacts = true → net.reactor i ∉ graph.queue →
    lastSeen i log = some (d.seen values) ∧ d.refresh i values i = values i
  waits : ∀ e ∈ graph.queue, ∃ i, net.Reacts i ∧ e = net.reactor i ∧ floor ≤ i ∧ Prompted net.defs start writes new i
  ran : ∃ ran : List Nat, ran.Pairwise (· < ·) ∧ (∀ i ∈ ran, net.Reacts i ∧ i < floor ∧ Prompted net.defs start writes new i) ∧
    log = (ran.map (observation net.defs new)).reverse ++ start

namespace Pending

variable {old new : Nat → ν} {writes : List (Nat × ν)} {start : Log ν} {floor k : Nat}

section

variable (pending : Pending net old new writes start floor values graph log)
include pending

theorem values_eq (ordered : Scoped net.defs)
    (consistent : Consistent net.defs new) (idle : ∀ j < k, net.Reacts j → net.reactor j ∉ graph.queue) :
    ∀ j < k, net.Holds j → values j = new j := by
  intro j
  induction j using Nat.strong_induction_on with
  | _ j ih =>
    rintro before ⟨d, found, holds⟩
    cases d with
    | signal value => exact pending.signals j value found
    | effect => cases holds
    | computed f =>
      have same : ∀ entry ∈ Definition.seen new (.computed f), values entry.1 = new entry.1 := by
        intro entry read
        obtain ⟨less, holding⟩ := (ordered j _ found).allows read
        exact ih entry.1 less (less.trans before) holding
      have fixed := (pending.settled j _ found rfl (idle j before ⟨_, found, rfl⟩)).2
      have right := consistent j _ found
      simp only [Definition.refresh, update_self] at fixed right
      rw [← fixed, ← right, (f.congr same).1]

theorem not_waiting (reacts : net.Reacts k) (below : k < floor) : net.reactor k ∉ graph.queue := by
  intro waiting
  obtain ⟨_, acts, same, _, _⟩ := pending.waits _ waiting
  have equal := pending.laid.reactor_inj reacts.lt acts.lt same
  omega

theorem sources_lt (ordered : Scoped net.defs)
    {d : Definition ν} (found : net.defs[k]? = some d) (acts : d.reacts = true) {j : Nat} (read : j ∈ sourcesIn log k) :
    j < k := by
  have sees : ∃ shown, lastSeen k log = some (d.seen shown) := by
    rcases lt_or_ge k floor with below | above
    · exact ⟨values, (pending.settled k d found acts (pending.not_waiting ⟨d, found, acts⟩ below)).1⟩
    · exact ⟨old, (pending.later k above).trans (pending.started k d found acts)⟩
  obtain ⟨_, sees⟩ := sees
  rw [sourcesIn, sees] at read
  obtain ⟨_, mem, rfl⟩ := mem_map.mp read
  exact ((ordered k d found).allows mem).1

end

section Step

variable {d : Definition ν} {rest : List OwnerId} {next : Graph (Task ν) ν}
  (pending : Pending net old new writes start floor values graph log)
  (queue : graph.queue = net.reactor i :: rest) (found : net.defs[i]? = some d) (acts : d.reacts = true)
include pending queue found acts

theorem idle_before : ∀ j < i, net.Reacts j → net.reactor j ∉ graph.queue := by
  intro j before _ waiting
  have sorted := pending.sorted
  rw [queue] at sorted waiting
  have less := pending.laid.reactor_lt before (Net.Reacts.lt ⟨d, found, acts⟩)
  rcases mem_cons.mp waiting with same | later
  · exact less.ne same
  · exact lt_asymm less ((pairwise_cons.mp sorted).1 _ later)

variable (ordered : Scoped net.defs) (reran : Reran net (sourcesIn log) i d values { graph with queue := rest } next)
include ordered reran

omit pending queue acts reran in
theorem not_self {shown : Nat → ν} {entry : Nat × ν} (read : entry ∈ d.seen shown) : entry.1 ≠ i :=
  Nat.ne_of_lt ((ordered i d found).allows read).1

theorem step_settled {k : Nat} {e : Definition ν} (there : net.defs[k]? = some e) (reacts : e.reacts = true)
    (quiet : net.reactor k ∉ next.queue) :
    lastSeen k (⟨i, d.seen values⟩ :: log) = some (e.seen (d.refresh i values)) ∧
      e.refresh k (d.refresh i values) k = d.refresh i values k := by
  by_cases same : k = i
  · subst same
    obtain rfl : d = e := by simpa [found] using there
    have unread : ∀ entry ∈ d.seen values, d.refresh k values entry.1 = values entry.1 :=
      fun entry read => Definition.refresh_of_ne (not_self found ordered read)
    refine ⟨(lastSeen_cons_self _).trans (congrArg some (Definition.seen_congr unread).symm), ?_⟩
    cases d with
    | signal => rfl
    | effect => rfl
    | computed f =>
      simp only [Definition.refresh, update_self]
      exact (f.congr unread).1
  · have absent : net.reactor k ∉ graph.queue := by
      rw [queue, mem_cons]
      rintro (equal | later)
      · exact same (pending.laid.reactor_inj (Net.Reacts.lt ⟨e, there, reacts⟩) (Net.Reacts.lt ⟨d, found, acts⟩) equal)
      · exact quiet ((reran.mem_queue _).mpr (.inl later))
    obtain ⟨seen, fixed⟩ := pending.settled k e there reacts absent
    -- had the value changed, its readers would have been queued
    have unread : ∀ entry ∈ e.seen values, d.refresh i values entry.1 = values entry.1 := by
      intro entry read
      by_cases here : entry.1 = i
      · rw [here]
        by_contra changes
        refine quiet ((reran.mem_queue _).mpr (.inr ⟨changes, k, ⟨e, there, reacts⟩, rfl, ?_⟩))
        rw [update_of_ne same, sourcesIn, seen, ← here]
        exact mem_map_of_mem read
      · exact Definition.refresh_of_ne here
    constructor
    · rw [lastSeen_cons_of_ne same, seen, Definition.seen_congr unread]
    · rw [Definition.refresh_congr unread (Definition.refresh_of_ne same), fixed, Definition.refresh_of_ne same]

variable (consistent : Consistent net.defs new)
include consistent

omit reran in
theorem step_current : d.seen values = d.seen new ∧ ∀ f, d = .computed f → d.refresh i values i = new i := by
  have current := pending.values_eq ordered consistent (pending.idle_before queue found acts)
  have same : ∀ entry ∈ d.seen new, values entry.1 = new entry.1 := by
    intro entry read
    obtain ⟨before, holds⟩ := (ordered i d found).allows read
    exact current entry.1 before holds
  refine ⟨Definition.seen_congr same, ?_⟩
  rintro f rfl
  have right := consistent i _ found
  simp only [Definition.refresh, update_self] at right ⊢
  rw [(f.congr same).1, right]

variable (above : floor ≤ i)
include above

theorem step_waits {e : OwnerId} (waiting : e ∈ next.queue) :
    ∃ k, net.Reacts k ∧ e = net.reactor k ∧ i + 1 ≤ k ∧ Prompted net.defs start writes new k := by
  rcases (reran.mem_queue e).mp waiting with older | ⟨changes, k, ⟨c, there, reacts⟩, rfl, read⟩
  · have mem : e ∈ graph.queue := queue ▸ mem_cons_of_mem _ older
    obtain ⟨k, reacts, rfl, _, reason⟩ := pending.waits e mem
    have sorted := pending.sorted
    rw [queue] at sorted
    have later := (pairwise_cons.mp sorted).1 _ older
    exact ⟨k, reacts, rfl, pending.laid.lt_of_reactor_lt (Net.Reacts.lt ⟨d, found, acts⟩) later, reason⟩
  · have differs : k ≠ i := by
      rintro rfl
      rw [update_self] at read
      obtain ⟨_, mem, equal⟩ := mem_map.mp read
      exact not_self found ordered mem equal
    rw [update_of_ne differs] at read
    have before := pending.sources_lt ordered there reacts read
    have seen := pending.started k c there reacts
    rw [sourcesIn, pending.later k (by omega), seen] at read
    obtain ⟨entry, mem, rfl⟩ := mem_map.mp read
    refine ⟨k, ⟨c, there, reacts⟩, rfl, before, c.seen old, seen, entry, mem, .inr ?_⟩
    cases d with
    | signal => exact absurd rfl changes
    | effect => exact absurd rfl changes
    | computed f =>
      refine ⟨⟨f, found⟩, fun equal => changes ?_⟩
      rw [(pending.step_current queue found acts ordered consistent).2 f rfl, ← equal, pending.computed _ f above found,
        Definition.eq_of_mem_seen mem]

omit reran in
theorem step_ran (prompted : Prompted net.defs start writes new i) : ∃ ran : List Nat, ran.Pairwise (· < ·) ∧
      (∀ j ∈ ran, net.Reacts j ∧ j < i + 1 ∧ Prompted net.defs start writes new j) ∧
      ⟨i, d.seen values⟩ :: log = (ran.map (observation net.defs new)).reverse ++ start := by
  obtain ⟨ran, order, all, rfl⟩ := pending.ran
  refine ⟨ran ++ [i], ?_, ?_, ?_⟩
  · rw [pairwise_append]
    refine ⟨order, pairwise_singleton .., fun j mem k last => ?_⟩
    rw [mem_singleton.mp last]
    exact lt_of_lt_of_le (all j mem).2.1 above
  · intro j mem
    rcases mem_append.mp mem with earlier | last
    · obtain ⟨reacts, _, reason⟩ := all j earlier
      exact ⟨reacts, by omega, reason⟩
    · rw [mem_singleton.mp last]
      exact ⟨⟨d, found, acts⟩, lt_succ_self i, prompted⟩
  · have sees := (pending.step_current queue found acts ordered consistent).1
    simp [observation, found, sees]

theorem step (prompted : Prompted net.defs start writes new i) :
    Pending net old new writes start (i + 1) (d.refresh i values) next (⟨i, d.seen values⟩ :: log) where
  laid := by
    rw [sourcesIn_cons]
    exact reran.laid
  stored := reran.stored
  sorted := reran.sorted
  signals := by
    intro j value there
    have differs : j ≠ i := by
      rintro rfl
      rw [found] at there
      cases there
      cases acts
    rw [Definition.refresh_of_ne differs, pending.signals j value there]
  computed := by
    intro j f past there
    rw [Definition.refresh_of_ne (by omega), pending.computed j f (by omega) there]
  started := pending.started
  later := by
    intro j past
    rw [lastSeen_cons_of_ne (by omega), pending.later j (by omega)]
  settled _ _ there reacts quiet := pending.step_settled queue found acts ordered reran there reacts quiet
  waits _ waiting := pending.step_waits queue found acts ordered reran consistent above waiting
  ran := pending.step_ran queue found acts ordered consistent above prompted

end Step

end Pending

variable [BEq ν] [LawfulBEq ν] {old new : Nat → ν} {writes : List (Nat × ν)} {start : Log ν} {floor : Nat}

theorem ensures_drain_pending (pending : Pending net old new writes start floor values graph log)
    (ordered : Scoped net.defs) (consistent : Consistent net.defs new) (flushing : graph.flushing = true) :
    Ensures (net.defs.length - floor + 3) (fun fuel => Job.run Task.meaning fuel .drain) graph log
      fun _ graph' log' => (∃ floor values, Pending net old new writes start floor values graph' log') ∧
        graph' = { graph with cells := graph'.cells, owners := graph'.owners, queue := [] } := by
  induction steps : net.defs.length - floor using Nat.strong_induction_on generalizing floor values graph log with
  | _ _ ih =>
    subst steps
    refine .job ?_
    simp only [Job.step, drain]
    refine .see ?_
    cases queue : graph.queue with
    | nil =>
      refine .pure ⟨⟨floor, values, pending⟩, ?_⟩
      rw [← queue]
    | cons next rest =>
      obtain ⟨i, ⟨d, found, acts⟩, rfl, above, prompted⟩ := pending.waits next (by simp [queue])
      have mem : i < net.defs.length := Net.Reacts.lt ⟨d, found, acts⟩
      have sorted := pending.sorted
      rw [queue] at sorted
      have popped : Laid net (sourcesIn log) { graph with queue := rest } := pending.laid.congr rfl rfl rfl
      refine .alter ?_
      refine Ensures.bind (Ensures.raise (ensures_rerun_flushing popped found acts (ordered i d found) pending.stored
        (pairwise_cons.mp sorted).2 flushing) (by omega)) ?_
      rintro _ graph' _ ⟨reran, rfl⟩
      have again : graph'.flushing = true := by
        rw [reran.frame]
        exact flushing
      have onward := ih (net.defs.length - (i + 1)) (by omega)
        (pending.step queue found acts ordered reran consistent above prompted) again rfl
      refine (onward.raise (by omega)).mono ?_
      rintro _ _ _ ⟨done, same⟩
      refine ⟨done, ?_⟩
      rw [same, reran.frame]

end Rounds

section Batches

structure Settled (net : Net ν) (signals : Nat → ν) (owner : Option OwnerId) (graph : Graph (Task ν) ν) (log : Log ν) :
    Prop where
  laid : Laid net (sourcesIn log) graph
  stored : Stored net graph (recompute net.defs signals)
  seen : ∀ i d, net.defs[i]? = some d → d.reacts = true → lastSeen i log = some (d.seen (recompute net.defs signals))
  rest : AtRest graph owner

structure Writing (net : Net ν) (old : Nat → ν) (writes : List (Nat × ν)) (graph : Graph (Task ν) ν) (log : Log ν) :
    Prop where
  laid : Laid net (sourcesIn log) graph
  stored : Stored net graph (written old writes)
  sorted : graph.queue.Pairwise (· < ·)
  seen : ∀ i d, net.defs[i]? = some d → d.reacts = true → lastSeen i log = some (d.seen old)
  mem_queue : ∀ e, e ∈ graph.queue ↔ ∃ k, net.Reacts k ∧ e = net.reactor k ∧ ∃ entry ∈ writes, entry.1 ∈ sourcesIn log k

variable {signals old new : Nat → ν} {writes : List (Nat × ν)} {owner : Option OwnerId}

theorem Settled.writing (settled : Settled net signals owner graph log) :
    Writing net (recompute net.defs signals) [] graph log := by
  refine ⟨settled.laid, settled.stored, ?_, settled.seen, fun e => ?_⟩ <;> simp [settled.rest.queue_eq]

theorem Writing.put (writing : Writing net old writes graph log) (holds : net.Holds i) (value : ν) :
    Writing net old (writes ++ [(i, value)]) (graph.put (net.handle i) value) log where
  laid := writing.laid.put
  stored := by
    rw [written_append]
    exact writing.stored.put writing.laid holds
  sorted := pairwise_put writing.sorted
  seen := writing.seen
  mem_queue := by
    intro e
    rw [writing.laid.mem_put holds, writing.mem_queue]
    constructor
    · rintro (⟨k, acts, rfl, entry, mem, read⟩ | ⟨k, acts, rfl, read⟩)
      · exact ⟨k, acts, rfl, entry, mem_append_left _ mem, read⟩
      · exact ⟨k, acts, rfl, (i, value), by simp, read⟩
    · rintro ⟨k, acts, rfl, entry, mem, read⟩
      rcases mem_append.mp mem with older | last
      · exact .inl ⟨k, acts, rfl, entry, older, read⟩
      · rw [mem_singleton.mp last] at read
        exact .inr ⟨k, acts, rfl, read⟩

theorem Writing.pending (writing : Writing net old writes graph log) (only : WritesSignals net.defs writes)
    (consistent : Consistent net.defs old)
    (signals : ∀ i value, net.defs[i]? = some (.signal value) → new i = written old writes i) :
    Pending net old new writes log 0 (written old writes) graph log where
  laid := writing.laid
  stored := writing.stored
  sorted := writing.sorted
  signals i value found := (signals i value found).symm
  computed i f _ found := by
    refine written_of_not_mem old fun mem => ?_
    obtain ⟨entry, there, rfl⟩ := mem_map.mp mem
    obtain ⟨_, same⟩ := only entry there
    simp [found] at same
  started := writing.seen
  later _ _ := rfl
  settled := by
    intro i d found acts quiet
    have unread : ∀ entry ∈ d.seen old, written old writes entry.1 = old entry.1 := by
      intro entry read
      refine written_of_not_mem old fun mem => quiet ?_
      obtain ⟨write, there, same⟩ := mem_map.mp mem
      refine (writing.mem_queue _).mpr ⟨i, ⟨d, found, acts⟩, rfl, write, there, ?_⟩
      rw [sourcesIn, writing.seen i d found acts, same]
      exact mem_map_of_mem read
    have kept : written old writes i = old i := by
      refine written_of_not_mem old fun mem => ?_
      obtain ⟨entry, there, rfl⟩ := mem_map.mp mem
      obtain ⟨_, same⟩ := only entry there
      rw [found] at same
      cases same
      cases acts
    constructor
    · rw [writing.seen i d found acts, Definition.seen_congr unread]
    · rw [Definition.refresh_congr unread kept, consistent i d found, kept]
  waits := by
    intro e waiting
    obtain ⟨k, ⟨d, found, acts⟩, rfl, _, there, read⟩ := (writing.mem_queue e).mp waiting
    have seen := writing.seen k d found acts
    rw [sourcesIn, seen] at read
    obtain ⟨entry, mem, same⟩ := mem_map.mp read
    refine ⟨k, ⟨d, found, acts⟩, rfl, zero_le k, d.seen old, seen, entry, mem, .inl ?_⟩
    rw [same]
    exact mem_map_of_mem there
  ran := ⟨[], .nil, by simp, rfl⟩

theorem Pending.settle {start : Log ν} {floor : Nat}
    (pending : Pending net old (recompute net.defs signals) writes start floor values graph log)
    (ordered : Scoped net.defs) (rest : AtRest graph owner) : Settled net signals owner graph log := by
  have current := pending.values_eq ordered (recompute_consistent ordered signals)
    fun j (_ : j < net.defs.length) _ => by simp [rest.queue_eq]
  refine ⟨pending.laid, fun i holds => ?_, fun i d found acts => ?_, rest⟩
  · rw [← current i holds.lt holds]
    exact pending.stored i holds
  · rw [(pending.settled i d found acts (by simp [rest.queue_eq])).1]
    refine congrArg some (Definition.seen_congr fun entry read => ?_)
    have holds := ((ordered i d found).allows read).2
    exact current entry.1 (Net.Holds.lt holds) holds

/-- What a round of reactions leaves: all is up to date, each reaction ran at most once and in order, those that ran
had reason to, and saw only what is up to date. -/
structure Flushed (net : Net ν) (signals : Nat → ν) (writes : List (Nat × ν)) (owner : Option OwnerId)
    (start : Log ν) (graph : Graph (Task ν) ν) (log : Log ν) : Prop where
  settled : Settled net (written signals writes) owner graph log
  ran : ∃ ran : List Nat, ran.Pairwise (· < ·) ∧
    (∀ i ∈ ran, net.Reacts i ∧ Prompted net.defs start writes (recompute net.defs (written signals writes)) i) ∧
    log = (ran.map (observation net.defs (recompute net.defs (written signals writes)))).reverse ++ start

variable [BEq ν] [LawfulBEq ν]

theorem ensures_flush_writing (writing : Writing net (recompute net.defs signals) writes graph log)
    (ordered : Scoped net.defs) (only : WritesSignals net.defs writes) (free : graph.flushing = false)
    (flat : graph.batchDepth = 0) (owned : graph.owner = owner) (unseen : graph.observer = none) :
    Ensures (net.defs.length + 3) (fun fuel => flush (Job.run Task.meaning fuel)) graph log
      fun _ graph' log' => Flushed net signals writes owner log graph' log' := by
  have new : ∀ i value, net.defs[i]? = some (.signal value) →
      recompute net.defs (written signals writes) i = written (recompute net.defs signals) writes i := by
    intro i value found
    rw [recompute_signal found, written_congr writes (recompute_signal found)]
  have pending := writing.pending only (recompute_consistent ordered signals) new
  have begun : Pending net (recompute net.defs signals) (recompute net.defs (written signals writes)) writes log 0
      (written (recompute net.defs signals) writes) { graph with flushing := true } log :=
    { pending with laid := pending.laid.congr rfl rfl rfl }
  unfold flush
  refine .see ?_
  rw [free]
  refine .alter ?_
  refine (ensures_drain_pending begun ordered (recompute_consistent ordered _) rfl).bind ?_
  rintro _ graph' log' ⟨⟨floor, shown, done⟩, same⟩
  refine fun _ history _ => ⟨_, _, _, history, rfl, ?_⟩
  have ended : Pending net (recompute net.defs signals) (recompute net.defs (written signals writes)) writes log floor
      shown { graph' with flushing := false } log' :=
    { done with laid := done.laid.congr rfl rfl rfl }
  have rest : AtRest { graph' with flushing := false } owner := by
    rw [same]
    exact ⟨rfl, rfl, flat, owned, unseen⟩
  obtain ⟨ran, order, all, eq⟩ := done.ran
  exact ⟨ended.settle ordered rest, ran, order, fun j mem => ⟨(all j mem).1, (all j mem).2.2⟩, eq⟩

theorem ensures_write_signal (settled : Settled net signals owner graph log) (ordered : Scoped net.defs) {start : ν}
    (found : net.defs[i]? = some (.signal start)) (value : ν) :
    (perform (.write (net.handle i) value)).Ensures Task.meaning (net.defs.length + 3) graph log
      fun _ graph' log' => Settled net (update signals i value) owner graph' log' := by
  have holds : net.Holds i := ⟨_, found, rfl⟩
  obtain ⟨_, there, readers⟩ := settled.laid.cell holds
  have writing := settled.writing.put holds value
  have only : WritesSignals net.defs ([] ++ [(i, value)]) := by
    intro entry mem
    rw [nil_append, mem_singleton] at mem
    exact ⟨start, mem ▸ found⟩
  refine ensures_perform (ensures_put there readers.free ?_)
  rw [settled.rest.depth_eq]
  simp only [eq_self, if_true]
  have frame : (graph.put (net.handle i) value).flushing = false ∧ (graph.put (net.handle i) value).batchDepth = 0 ∧
      (graph.put (net.handle i) value).owner = owner ∧ (graph.put (net.handle i) value).observer = none := by
    rw [put_eq]
    exact ⟨settled.rest.flushing_eq, settled.rest.depth_eq, settled.rest.owner_eq, settled.rest.observer_eq⟩
  obtain ⟨free, flat, owned, unseen⟩ := frame
  exact (ensures_flush_writing writing ordered only free flat owned unseen).mono fun _ _ _ flushed => flushed.settled

theorem ensures_writeAll (settled : Settled net signals owner graph log) (ordered : Scoped net.defs)
    (only : WritesSignals net.defs writes) :
    (writeAll net.handles writes).Ensures Task.meaning (net.defs.length + 3) graph log
      fun _ graph' log' => Settled net (written signals writes) owner graph' log' := by
  induction writes generalizing signals graph log with
  | nil => exact ensures_pure settled
  | cons entry _ ih =>
    obtain ⟨_, found⟩ := only entry (by simp)
    refine (ensures_write_signal settled ordered found entry.2).bind ?_
    exact fun _ graph' log' next => ih next fun other mem => only other (mem_cons_of_mem entry mem)

omit [LawfulBEq ν] in
theorem ensures_writing {done : List (Nat × ν)} (writing : Writing net old done graph log)
    (only : WritesSignals net.defs writes) (deep : graph.batchDepth ≠ 0) :
    (writeAll net.handles writes).Ensures Task.meaning level graph log fun _ graph' log' =>
      Writing net old (done ++ writes) graph' log' ∧
        graph' = { graph with cells := graph'.cells, queue := graph'.queue } ∧ log' = log := by
  induction writes generalizing done graph with
  | nil => exact ensures_pure ⟨by simpa using writing, rfl, rfl⟩
  | cons entry _ ih =>
    obtain ⟨_, found⟩ := only entry (by simp)
    have holds : net.Holds entry.1 := ⟨_, found, rfl⟩
    obtain ⟨_, there, readers⟩ := writing.laid.cell holds
    have one : (perform (.write (net.handle entry.1) entry.2)).Ensures Task.meaning level graph log
        fun _ graph' log' => graph' = graph.put (net.handle entry.1) entry.2 ∧ log' = log := by
      refine ensures_perform (ensures_put there readers.free ?_)
      simp only [deep, if_false]
      exact .pure ⟨rfl, rfl⟩
    refine one.bind ?_
    rintro _ _ _ ⟨rfl, rfl⟩
    have frame : graph.put (net.handle entry.1) entry.2 = _ := put_eq
    refine (ih (writing.put holds entry.2) (fun other mem => only other (mem_cons_of_mem entry mem)) ?_).mono ?_
    · rw [frame]
      exact deep
    · rintro _ _ _ ⟨next, same, rfl⟩
      refine ⟨by simpa using next, ?_, rfl⟩
      rw [same, frame]

theorem ensures_batch (settled : Settled net signals owner graph log) (ordered : Scoped net.defs)
    (only : WritesSignals net.defs writes) :
    (batch (writeAll net.handles writes)).Ensures Task.meaning (net.defs.length + 3) graph log
      fun _ graph' log' => Flushed net signals writes owner log graph' log' := by
  have begun : Writing net (recompute net.defs signals) [] { graph with batchDepth := graph.batchDepth + 1 } log :=
    { settled.writing with laid := settled.laid.congr rfl rfl rfl }
  have batched : Ensures (net.defs.length + 3) (fun fuel => inBatch (Job.run Task.meaning fuel)
      ((writeAll net.handles writes).run (Job.run Task.meaning fuel))) graph log
      fun _ graph' log' => Flushed net signals writes owner log graph' log' := by
    unfold inBatch
    refine .alter (Ensures.bind (ensures_writing begun only (succ_ne_zero _)) ?_)
    rintro _ graph' log ⟨writing, same, rfl⟩
    refine .alter (.see ?_)
    have flat : graph'.batchDepth - 1 = 0 := by
      rw [same]
      exact settled.rest.depth_eq
    have ended : Writing net (recompute net.defs signals) writes { graph' with batchDepth := graph'.batchDepth - 1 } log :=
      { writing with laid := writing.laid.congr rfl rfl rfl }
    have frame : graph'.flushing = false ∧ graph'.owner = owner ∧ graph'.observer = none := by
      rw [same]
      exact ⟨settled.rest.flushing_eq, settled.rest.owner_eq, settled.rest.observer_eq⟩
    rw [show ({ graph' with batchDepth := graph'.batchDepth - 1 } : Graph (Task ν) ν).batchDepth = 0 from flat]
    simp only [eq_self, if_true]
    refine (ensures_flush_writing ended ordered only frame.1 flat frame.2.1 frame.2.2).bind ?_
    exact fun _ _ _ flushed => .pure flushed
  exact batched.bind fun _ _ _ flushed => .pure flushed

end Batches

end LiveMarkup.Reactive
