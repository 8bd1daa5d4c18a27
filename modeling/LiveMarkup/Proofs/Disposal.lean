import LiveMarkup.Proofs.Passages

/-!
What is left of an owner that is disposed, and of all that are listed below it. Once an owner is gone its body begins
no more, whoever writes what. While it is being disposed it is still there: its cleanups run before it is taken out,
and a write among them starts a round at once unless there is a batch or a round already. So a body begins during its
own disposal only because of a write. A reaction that is disposed while it is cleaned to run anew has begun that run
before it was disposed, and goes on with it.
-/

namespace LiveMarkup.Reactive
open List Option Run Reactive.Graph

variable {P : Type → Type} {σ ν : Type} {exempt : Set OwnerId} {α : Type}

section Jobs

variable {self : Runner P σ ν} {state : State P σ ν} {graph : Graph P ν} {e : OwnerId} {middle : State P σ ν}

structure Going (runner : Runner P σ ν) : Prop where
  perform : ∀ {ι : Type} (task : P ι), Goes False ∅ (runner (.perform task))
  dispose : ∀ e, Goes False ∅ (runner (.dispose e))
  disposed : ∀ e state next, state.graph.Counted → runner (.dispose e) state = .ok () next → next.graph.ownerAlive e = false
  rerun : ∀ e, Goes False {e} (runner (.rerun e))
  drain : ∀ state, state.graph.Counted → Went False {_e | state.graph.queue ≠ []} state (runner .drain state)

theorem Went.flush (going : Going self) (counted : state.graph.Counted) (flat : state.graph.batchDepth = 0) :
    Went False ∅ state (flush self state) := by
  show Went False ∅ state ((if state.graph.flushing = true then Pure.pure () else
    alterGraph (fun graph => { graph with flushing := true }) >>= fun _ => self .drain >>= fun _ =>
      alterGraph fun graph => { graph with flushing := false }) state)
  split
  · exact Ends.refl counted
  · rename_i still
    let entered : State P σ ν := { state with graph := { state.graph with flushing := true } }
    have unheld : ¬ state.Held := by simp [State.Held, still, flat]
    have unmarked : ∀ {next}, Passes False {_e | entered.graph.queue ≠ []} entered next → Passes False ∅ state next :=
      fun passes => { passes with
        held := fun held => absurd held unheld
        idle := fun quiet empty same e old _ => passes.idle quiet empty same e old fun waiting => waiting empty }
    have drained := going.drain entered ⟨counted.owners, counted.children⟩
    change Went False ∅ state (EStateM.bind (self .drain) _ entered)
    unfold EStateM.bind
    cases done : self .drain entered with
    | error =>
      rw [done] at drained
      exact unmarked drained
    | ok =>
      rw [done] at drained
      have passes := unmarked drained.toPasses
      exact { passes with
        counted := ⟨passes.counted.owners, passes.counted.children⟩
        flushing_eq := (Bool.eq_false_iff.mpr still).symm
        batchDepth_eq := drained.batchDepth_eq
        emptied := drained.emptied
        lists := drained.lists }

theorem Goes.notify (going : Going self) (cell : CellId) : Goes True ∅ (notify self cell) := by
  refine .see fun alive => ?_
  split
  · intro state counted
    have same : ∃ queue, state.graph.enqueueSubscribers cell = { state.graph with queue } := by
      unfold enqueueSubscribers
      split
      · exact ⟨_, rfl⟩
      · exact ⟨_, rfl⟩
    obtain ⟨queue, same⟩ := same
    let queued : State P σ ν := { state with graph := { state.graph with queue } }
    have ends : Ends True ∅ state queued := { (Ends.refl counted : Ends True ∅ state state) with
      counted := ⟨counted.owners, counted.children⟩
      emptied := fun quiet => (quiet trivial).elim }
    show Went True ∅ state ((if (state.graph.enqueueSubscribers cell).batchDepth = 0 then flush self else Pure.pure ())
      { state with graph := state.graph.enqueueSubscribers cell })
    rw [same]
    split
    · rename_i flat
      have flushed : Went False ∅ queued (flush self queued) := .flush going ends.counted flat
      exact ends.went counted flushed.louder fun _ => .inl
    · exact ends
  · exact .pure ()

theorem Goes.inBatch {ι : Type} {body : Run P σ ν ι} (going : Going self) (goes : Goes False exempt body) :
    Goes False exempt (inBatch self body) := by
  intro state counted
  let entered : State P σ ν := { state with graph := { state.graph with batchDepth := state.graph.batchDepth + 1 } }
  have unmarked : ∀ {next}, Passes False exempt entered next → Passes False exempt state next := fun passes =>
    { passes with held := fun _ => passes.held (.inr (Nat.succ_pos _)) }
  have mem := goes entered ⟨counted.owners, counted.children⟩
  change Went False exempt state (EStateM.bind body _ entered)
  unfold EStateM.bind
  cases done : body entered with
  | error =>
    rw [done] at mem
    exact unmarked mem
  | ok value middle =>
    rw [done] at mem
    let left : State P σ ν := { middle with graph := { middle.graph with batchDepth := middle.graph.batchDepth - 1 } }
    have passes := unmarked mem.toPasses
    have ends : Ends False exempt state left := { passes with
      counted := ⟨passes.counted.owners, passes.counted.children⟩
      flushing_eq := mem.flushing_eq
      batchDepth_eq := by
        show middle.graph.batchDepth - 1 = _
        rw [mem.batchDepth_eq]
        rfl
      emptied := mem.emptied
      lists := mem.lists }
    show Went False exempt state ((if left.graph.batchDepth = 0 then flush self >>= fun _ => Pure.pure value
      else Pure.pure value) left)
    split
    · rename_i flat
      have flushed : Went False ∅ left ((flush self >>= fun _ => Pure.pure value) left) :=
        .bind ends.counted (.flush going ends.counted flat) (fun _ next _ done => Ends.refl done.counted)
          fun _ mem => .inl mem
      exact ends.went counted flushed fun _ mem => absurd mem (Set.notMem_empty _)
    · exact ends

theorem Goes.write (going : Going self) (cell : CellId) (value : ν) : Goes False ∅ (write self cell value) :=
  Goes.rules.write self self (.announce fun _ => .notify going cell)

theorem Going.children (going : Going self) (children : List OwnerId) (counted : state.graph.Counted)
    (old : ∀ child ∈ children, child < state.graph.nextId) :
    Went False ∅ state ((children.forM fun child => self (.dispose child)) state) ∧
      ∀ next, (children.forM fun child => self (.dispose child)) state = .ok () next →
        ∀ child ∈ children, next.graph.ownerAlive child = false := by
  refine ⟨Goes.forM going.dispose children state counted, ?_⟩
  induction children generalizing state with
  | nil => simp
  | cons child children ih =>
    intro next ok e mem
    obtain ⟨_, middle, here, there⟩ := bind_ok ok
    have first : Ends False ∅ state middle := (going.dispose child).ends counted here
    have rest : Ends False ∅ middle next := (Goes.forM going.dispose children).ends first.counted there
    rcases mem_cons.mp mem with rfl | mem
    · exact (rest.gone e ((old e mem_cons_self).trans_le first.nextId_le)
        (going.disposed e state middle counted here)).1
    · exact ih first.counted (fun e mem => (old e (mem_cons_of_mem _ mem)).trans_le first.nextId_le) next there e
        mem

theorem Graph.owners_resetOwner (graph : Graph P ν) (e p : OwnerId) :
    (graph.resetOwner e).owners.get? p = (graph.owners.get? p).map fun o =>
      if p = e then { o with children := [], cleanups := [], cells := [], sources := [] } else o :=
  Table.get?_modify_eq_map graph.owners e p _

theorem Graph.Counted.resetOwner (counted : graph.Counted) (e : OwnerId) : (graph.resetOwner e).Counted := by
  refine counted.fewer (le_rfl) fun p q found => ?_
  obtain ⟨old, there, rfl⟩ := map_eq_some_iff.mp ((graph.owners_resetOwner e p).symm.trans found)
  refine ⟨old, there, fun child mem => ?_⟩
  split at mem
  · simp at mem
  · exact mem

theorem Went.reset {owner : Owner P ν} {result : EStateM.Result Fault (State P σ ν) α}
    (found : state.graph.owners.get? e = some owner)
    (went : Went False ∅ { state with graph := state.graph.resetOwner e } result)
    (killed : ∀ value next, result = .ok value next → ∀ child ∈ owner.children, next.graph.ownerAlive child = false) :
    Went False ∅ state result := by
  have unmarked : ∀ {next}, Passes False ∅ { state with graph := state.graph.resetOwner e } next →
      Passes False ∅ state next := fun passes =>
    { passes with gone := fun x old gone => passes.gone x old (by
        simpa only [ownerAlive, Table.contains, owners_resetOwner, isSome_map] using gone) }
  cases result with
  | error => exact unmarked went
  | ok value next =>
    have ends : Ends False ∅ { state with graph := state.graph.resetOwner e } next := went
    refine { unmarked ends.toPasses with
      flushing_eq := ends.flushing_eq
      batchDepth_eq := ends.batchDepth_eq
      emptied := ends.emptied
      lists := fun p q there child mem => ?_ }
    by_cases same : p = e
    · subst same
      obtain rfl := some.inj (found.symm.trans there)
      exact .inl (killed value next rfl child mem)
    · refine ends.lists p q ?_ child mem
      rw [owners_resetOwner, there, map_some, if_neg same]

theorem Going.clean (going : Going self) (e : OwnerId) (counted : state.graph.Counted) :
    Went False ∅ state (Run.clean self e state) ∧
      ∀ next, Run.clean self e state = .ok () next → ∀ o, state.graph.owners.get? e = some o →
        ∀ child ∈ o.children, next.graph.ownerAlive child = false := by
  unfold Run.clean
  rw [run_see]
  cases found : state.graph.owners.get? e with
  | none => exact ⟨Ends.refl counted, by simp⟩
  | some owner =>
    let emptied : State P σ ν := { state with graph := state.graph.resetOwner e }
    let children : Run P σ ν Unit := owner.children.reverse.forM fun child => self (.dispose child)
    let rest : Run P σ ν Unit := owner.cleanups.reverse.forM (fun task => self (.perform task)) >>= fun _ =>
      Run.alterGraph (·.release e owner.sources owner.cells)
    have old : ∀ child ∈ owner.children.reverse, child < emptied.graph.nextId := fun child mem =>
      counted.children e owner found child (mem_reverse.mp mem)
    obtain ⟨one, gone⟩ := going.children owner.children.reverse (counted.resetOwner e) old
    have ends : Goes False ∅ rest := (Goes.forM going.perform _).bind fun _ => .alter fun graph =>
      ⟨le_rfl, fun _ => rfl, rfl, rfl, rfl⟩
    have went : Went False ∅ emptied ((children >>= fun _ => rest) emptied) :=
      .bind (counted.resetOwner e) one (fun _ middle _ done => ends middle done.counted) fun _ => .inl
    have killed : ∀ next, (children >>= fun _ => rest) emptied = .ok () next →
        ∀ child ∈ owner.children, next.graph.ownerAlive child = false := by
      intro next ok child mem
      obtain ⟨_, middle, here, there⟩ := bind_ok ok
      have mem := mem_reverse.mpr mem
      have first : Ends False ∅ emptied middle := (Goes.forM going.dispose _).ends (counted.resetOwner e) here
      exact ((ends.ends first.counted there).gone child ((old child mem).trans_le first.nextId_le)
        (gone middle here child mem)).1
    refine ⟨went.reset found fun _ next ok => killed next ok, fun next ok o same => ?_⟩
    obtain rfl := some.inj same
    exact killed next ok

theorem Graph.alive_eraseOwner (graph : Graph P ν) (e x : OwnerId) :
    (graph.eraseOwner e).ownerAlive x = (decide (x ≠ e) && graph.ownerAlive x) := by
  simp only [ownerAlive, Table.contains, owners_erased]
  split <;> simp [*]

theorem Graph.Counted.eraseOwner (counted : graph.Counted) (e : OwnerId) : (graph.eraseOwner e).Counted := by
  refine counted.fewer (le_rfl) fun p q found => ?_
  rw [owners_erased] at found
  split at found
  · cases found
  · obtain ⟨old, there, rfl⟩ := map_eq_some_iff.mp found
    refine ⟨old, there, fun child mem => ?_⟩
    split at mem
    · exact (mem_filter.mp mem).1
    · exact mem

theorem Ends.erased (ends : Ends False ∅ state middle)
    (killed : ∀ o, state.graph.owners.get? e = some o → ∀ child ∈ o.children, middle.graph.ownerAlive child = false) :
    Ends False ∅ state { middle with graph := middle.graph.eraseOwner e } := by
  have gone : ∀ x, middle.graph.ownerAlive x = false → (middle.graph.eraseOwner e).ownerAlive x = false := fun x gone => by
    rw [alive_eraseOwner, gone, Bool.and_false]
  refine ⟨{ ends.toPasses with
    counted := ends.counted.eraseOwner e
    gone := fun x old before => ⟨gone x (ends.gone x old before).1, (ends.gone x old before).2⟩ },
    ends.flushing_eq, ends.batchDepth_eq, fun quiet empty same => ?_, fun p q there child mem => ?_⟩
  · show middle.graph.queue.filter (· != e) = []
    rw [ends.emptied quiet empty same]
    rfl
  · by_cases itself : p = e
    · subst itself
      exact .inl (gone child (killed q there child mem))
    · rcases ends.lists p q there child mem with before | ⟨q', found, inside'⟩
      · exact .inl (gone child before)
      · by_cases taken : child = e
        · subst taken
          exact .inl (by simp [alive_eraseOwner])
        · have kept := owners_erased middle.graph e p
          rw [if_neg itself, found, map_some] at kept
          refine .inr ⟨_, kept, ?_⟩
          split
          · exact mem_filter.mpr ⟨inside', by simpa using taken⟩
          · exact inside'

theorem Going.clears (going : Going self) (e : OwnerId) (counted : state.graph.Counted) :
    Went False ∅ state (Run.dispose self e state) ∧
      ∀ next, Run.dispose self e state = .ok () next → next.graph.ownerAlive e = false := by
  obtain ⟨cleaned, killed⟩ := going.clean e counted
  constructor
  · change Went False ∅ state (EStateM.bind (Run.clean self e) _ state)
    unfold EStateM.bind
    cases done : Run.clean self e state with
    | error =>
      rw [done] at cleaned
      exact cleaned
    | ok _ middle =>
      rw [done] at cleaned
      exact cleaned.erased (killed middle done)
  · intro next ok
    obtain ⟨_, _, _, erases⟩ := bind_ok ok
    cases erases
    simp [alive_eraseOwner]

theorem Goes.runBody [BEq ν] (going : Going self) (body : Body P ν) : Goes False ∅ (runBody self body) :=
  Goes.rules.runBody self self going.perform .store (.write going)

theorem Ends.begun {e : OwnerId} (ends : Ends False ∅ state middle) (alive : state.graph.ownerAlive e = true) :
    Ends False {e} state { middle with history := .began e :: middle.history } := by
  let begun : State P σ ν := { middle with history := .began e :: middle.history }
  have others : ∀ x, x ≠ e → begun.starts x = middle.starts x := fun x apart =>
    count_cons_of_ne (fun same => apart (Happening.began.inj same).symm)
  have writes : ∀ c, begun.writes c = middle.writes c := fun c => count_cons_of_ne (by simp)
  exact { ends with
    history := ends.history.trans (suffix_cons _ _)
    gone := fun x old gone => by
      have apart : x ≠ e := by
        rintro rfl
        rw [alive] at gone
        cases gone
      exact ⟨(ends.gone x old gone).1, (others x apart).trans (ends.gone x old gone).2⟩
    held := fun held x old apart => (others x apart).trans (ends.held held x old (Set.notMem_empty x))
    idle := fun quiet empty same x old apart => (others x apart).trans
      (ends.idle quiet empty (fun c => (writes c).symm.trans (same c)) x old (Set.notMem_empty x))
    emptied := fun quiet empty same => ends.emptied quiet empty fun c => (writes c).symm.trans (same c) }

theorem Goes.rerun [BEq ν] (going : Going self) (e : OwnerId) : Goes False {e} (Run.rerun self e) := by
  intro state counted
  unfold Run.rerun
  rw [run_see]
  cases found : state.graph.owners.get? e with
  | none => exact Ends.refl counted
  | some owner =>
    rw [bind_some]
    cases what : owner.body with
    | none => exact Ends.refl counted
    | some body =>
      have alive : state.graph.ownerAlive e = true := by simp [ownerAlive, Table.contains, found]
      obtain ⟨cleaned, _⟩ := going.clean e counted
      change Went False {e} state (EStateM.bind (Run.clean self e) _ state)
      unfold EStateM.bind
      cases done : Run.clean self e state with
      | error =>
        rw [done] at cleaned
        exact Passes.widen cleaned (Set.empty_subset _)
      | ok =>
        rw [done] at cleaned
        have begun := cleaned.begun alive
        have goes : Goes False ∅ (Run.inContext (some e) (some e) (Run.runBody self body)) :=
          (Goes.runBody going body).inContext _ _
        exact begun.went counted (goes _ begun.counted) fun _ mem => absurd mem (Set.notMem_empty _)

theorem Went.drain (going : Going self) (counted : state.graph.Counted) :
    Went False {_e | state.graph.queue ≠ []} state (Run.drain self state) := by
  unfold Run.drain
  rw [run_see]
  cases waiting : state.graph.queue with
  | nil => exact Ends.refl counted
  | cons first rest =>
    let popped : State P σ ν := { state with graph := { state.graph with queue := rest } }
    have went : Went False Set.univ popped ((self (.rerun first) >>= fun _ => self .drain) popped) := by
      have counted' : popped.graph.Counted := ⟨counted.owners, counted.children⟩
      refine .bind counted' ((going.rerun first popped counted').widen (Set.subset_univ _)) ?_ fun _ => .inl
      exact fun _ middle _ done => (going.drain middle done.counted).widen (Set.subset_univ _)
    have unmarked : ∀ {next}, Passes False Set.univ popped next →
        Passes False {_e | first :: rest ≠ []} state next := fun passes =>
      { passes with
        held := fun _ _ _ free => absurd (cons_ne_nil first rest) free
        idle := fun _ _ _ _ _ free => absurd (cons_ne_nil first rest) free }
    change Went False {_e | first :: rest ≠ []} state ((self (.rerun first) >>= fun _ => self .drain) popped)
    cases done : (self (.rerun first) >>= fun _ => self .drain) popped with
    | error =>
      rw [done] at went
      exact unmarked went
    | ok =>
      rw [done] at went
      exact { unmarked went.toPasses with
        flushing_eq := went.flushing_eq
        batchDepth_eq := went.batchDepth_eq
        emptied := fun _ empty => absurd (waiting.symm.trans empty) (cons_ne_nil first rest)
        lists := went.lists }

theorem Goes.newReaction (going : Going self) (body : Body P ν) : Goes False ∅ (Run.newReaction self body) := by
  intro state counted
  have made : Ends False ∅ state { state with graph := (state.graph.newOwner state.graph.owner (some body)).2 } :=
    .newOwner counted state.graph.owner (some body)
  have goes : Goes False {state.graph.nextId}
      (Run.inBatch self (self (.rerun state.graph.nextId)) >>= fun _ => Pure.pure state.graph.nextId) :=
    (Goes.inBatch going (going.rerun _)).bind fun _ => .pure _
  exact made.went counted (goes _ made.counted) fun e mem => .inr (Nat.le_of_eq (Set.mem_singleton_iff.mp mem).symm)

theorem Goes.updateCell (going : Going self) {cell : CellId} {body : ν → Run P σ ν ν} (goes : ∀ old, Goes False ∅ (body old)) :
    Goes False ∅ (updateCell self cell body) := by
  have marks : ∀ {loud inUse}, Goes loud ∅ (alterGraph (·.setInUse cell inUse) : Run P σ ν Unit) :=
    .alter fun _ => ⟨le_rfl, fun _ => rfl, rfl, rfl, rfl⟩
  exact Goes.rules.updateCell self self body body fun old => marks.bind fun _ => (goes old).bind fun value =>
    .announce fun _ => marks.bind fun _ => .notify going cell

theorem Goes.steps (going : Going self) : RunSteps (fun (run : Run P σ ν _) _ => Goes False ∅ run) self self where
  toRunRules := Goes.rules
  state change state counted := Ends.alike counted (.refl _) (suffix_refl _) fun _ => rfl
  perform := going.perform
  newSignal value := .newCell (some value)
  newComputed task := Goes.rules.newComputed self self (.newCell none) fun _ => .newReaction going _
  newEffect task := .newReaction going (.effect task)
  newRoot := .newOwner (fun _ => none) none
  onDispose task := .alter fun graph => .addCleanup graph task
  dispose owner state counted := (going.clears owner counted).1
  read tracked cell := Goes.rules.read (.alter fun graph => .track graph cell) fun e state counted =>
    Ends.alike counted (.refl _) (suffix_cons _ _) fun x => count_cons_of_ne (by simp)
  write := .write going
  inBatch := .inBatch going
  unobserved owner goes := goes.inContext owner none
  update := .updateCell going

theorem Goes.program (going : Going self) (program : Program P σ ν α) : Goes False ∅ (program.run self) :=
  (Goes.steps going).program program

theorem Going.step [BEq ν] (going : Going self) (meaning : Interpretation P σ ν) : Going (Job.step meaning self) where
  perform task := .program going (meaning task)
  dispose e _ counted := (going.clears e counted).1
  disposed e _ next counted ok := (going.clears e counted).2 next ok
  rerun e := .rerun going e
  drain _ counted := .drain going counted

theorem Going.run [BEq ν] (meaning : Interpretation P σ ν) (fuel : Nat) : Going (Job.run meaning fuel) := by
  induction fuel with
  | zero =>
    refine ⟨fun _ => .throw _, fun _ => .throw _, fun _ _ _ _ ok => ?_, fun _ => .throw _,
      fun _ counted => (Ends.refl counted).toPasses⟩
    cases ok
  | succ _ ih => exact ih.step meaning

end Jobs

section Calls

/-- An owner that is there, and whoever is listed below it. -/
inductive Graph.Under (graph : Graph P ν) (top : OwnerId) : OwnerId → Prop where
  | top (alive : graph.ownerAlive top = true) : graph.Under top top
  | listed {p e : OwnerId} {q : Owner P ν} (above : graph.Under top p) (found : graph.owners.get? p = some q)
      (inside : e ∈ q.children) : graph.Under top e

theorem Graph.Under.alive {graph : Graph P ν} {top e : OwnerId} (under : graph.Under top e) : graph.ownerAlive top = true := by
  induction under with
  | top alive => exact alive
  | listed _ _ _ ih => exact ih

theorem Graph.Under.trans {graph : Graph P ν} {top middle e : OwnerId} (one : graph.Under top middle) (two : graph.Under middle e) :
    graph.Under top e := by
  induction two with
  | top => exact one
  | listed _ found mem ih => exact .listed ih found mem

structure Stopped (e : OwnerId) (state : State P σ ν) : Prop where
  counted : state.graph.Counted
  old : e < state.graph.nextId
  gone : state.graph.ownerAlive e = false

variable {state next : State P σ ν} {top e : OwnerId} {loud : Prop}

theorem Stopped.passes (stopped : Stopped e state) (passes : Passes loud exempt state next) :
    Stopped e next ∧ next.starts e = state.starts e := by
  obtain ⟨gone, same⟩ := passes.gone e stopped.old stopped.gone
  exact ⟨⟨passes.counted, stopped.old.trans_le passes.nextId_le, gone⟩, same⟩

theorem Graph.Under.old (counted : state.graph.Counted) (under : state.graph.Under top e) : e < state.graph.nextId := by
  cases under with
  | top alive =>
    obtain ⟨o, there⟩ := isSome_iff_exists.mp alive
    exact counted.owners _ o there
  | listed _ found mem => exact counted.children _ _ found _ mem

theorem Ends.gone_under (ends : Ends loud exempt state next)
    (gone : next.graph.ownerAlive top = false) (under : state.graph.Under top e) : next.graph.ownerAlive e = false := by
  induction under with
  | top => exact gone
  | listed _ found mem ih =>
    rcases ends.lists _ _ found _ mem with gone | ⟨q, there, _⟩
    · exact gone
    · have present : next.graph.ownerAlive _ = true := isSome_iff_exists.mpr ⟨q, there⟩
      rw [ih] at present
      cases present

variable [BEq ν] {meaning : Interpretation P σ ν}

theorem Goes.execute (fuel : Nat) (program : Program P σ ν α) :
    Goes False ∅ (program.execute meaning fuel) := .program (.run meaning fuel) program

theorem Reached.counted (reached : Reached meaning state) : state.graph.Counted := by
  induction reached with
  | start => constructor <;> simp [Table.get?, Table.find?]
  | call _ program fuel returns ih => exact ((Goes.execute fuel program).ends ih returns).counted

/-- A disposed owner is stopped for good, with all that were listed below it when the disposal began: no program begins
the body of such an owner any more, whoever writes what, also if the program ends in a fault. The disposal itself begins
no such body when it is part of a batch or of a round, and otherwise none as long as the cleanups write nothing. -/
theorem disposed_stays_stopped {fuel : Nat} (counted : state.graph.Counted) (idle : Idle state)
    (under : state.graph.Under top e) :
    (∀ next, (Program.perform (.dispose top)).execute meaning fuel state = .ok () next → Stopped e next) ∧
    (∀ last, lastState ((Program.perform (.dispose top)).execute meaning fuel state) = last →
      (state.Held ∨ ∀ c, last.writes c = state.writes c) → last.starts e = state.starts e) ∧
    ∀ (later last : State P σ ν) (more : Nat) (α : Type) (program : Program P σ ν α), Stopped e later →
      lastState (program.execute meaning more later) = last → Stopped e last ∧ last.starts e = later.starts e := by
  have goes : Goes False ∅ ((Program.perform (.dispose top) : Program P σ ν Unit).execute meaning fuel) := .execute fuel _
  have old := under.old counted
  refine ⟨fun next ok => ?_, fun last same quiet => ?_, ?_⟩
  · have ends := goes.ends counted ok
    obtain ⟨_, cleared, here, same⟩ := bind_ok ok
    cases same
    have gone := ((Going.run meaning fuel).clears top counted).2 next here
    exact ⟨ends.counted, old.trans_le ends.nextId_le, ends.gone_under gone under⟩
  · have passes := same ▸ (goes state counted).passes
    by_cases held : state.Held
    · exact passes.held held e old (Set.notMem_empty e)
    · obtain ⟨still, flat⟩ := not_or.mp held
      have empty := idle (Bool.eq_false_iff.mpr still) (Nat.eq_zero_of_not_pos flat)
      exact passes.idle not_false empty (quiet.resolve_left held) e old (Set.notMem_empty e)
  · intro later last more α program stopped same
    exact stopped.passes (same ▸ (Goes.execute more program later stopped.counted).passes)

end Calls

inductive Parting : Type → Type where
  /-- The reader may leave it to its cleanup to give the cell another value. -/
  | read (cell : CellId) (leaves : Bool) : Parting Unit
  | change (cell : CellId) : Parting Unit

def Parting.meaning : Interpretation Parting Unit Nat
  | _, .read cell leaves => do
    let _ ← Program.get true cell
    if leaves then Program.perform (.onDispose (.change cell))
  | _, .change cell => Program.perform (.write cell 2)

def readBeforeParting (leaves : Bool) : Program Parting Unit Nat Unit := do
  let cell ← Program.perform (.newSignal 1)
  let _ ← Program.underRoot (Program.perform (.newEffect (.read cell leaves)))

def State.attending (state : State Parting Unit Nat) : Bool :=
  decide (state.starts 3 = 1) && decide ((state.graph.owners.get? 2).map Owner.children = some [3])

theorem under_of_attending {state : State Parting Unit Nat} (attending : state.attending = true) :
    state.graph.Under 2 3 ∧ state.starts 3 = 1 := by
  simp only [State.attending, Bool.and_eq_true, decide_eq_true_eq] at attending
  obtain ⟨root, found, children⟩ := map_eq_some_iff.mp attending.2
  exact ⟨.listed (.top (isSome_iff_exists.mpr ⟨root, found⟩)) found (by simp [children]), attending.1⟩

theorem disposed_stays_stopped_read : ∃ state next last, Reached Parting.meaning state ∧ state.starts 3 = 1 ∧
    (Program.perform (.dispose 2)).execute Parting.meaning 9 state = .ok () next ∧
    (Program.perform (.write 1 5)).execute Parting.meaning 9 next = .ok () last ∧
    Stopped 3 next ∧ next.starts 3 = 1 ∧ last.starts 3 = 1 := by
  have ran : (match (readBeforeParting false).execute Parting.meaning 9 { outside := () } with
      | .ok _ state => state.attending &&
        match (Program.perform (.dispose 2)).execute Parting.meaning 9 state with
        | .ok _ next => decide (next.history = state.history) &&
          match (Program.perform (.write 1 5)).execute Parting.meaning 9 next with
          | .ok _ _ => true
          | .error _ _ => false
        | .error _ _ => false
      | .error _ _ => false) = true := by decide +kernel
  split at ran
  · rename_i state returns
    obtain ⟨attending, ran⟩ := Bool.and_eq_true_iff.mp ran
    obtain ⟨under, once⟩ := under_of_attending attending
    have reached : Reached Parting.meaning state := .call (.start ()) (readBeforeParting false) 9 returns
    split at ran
    · rename_i next disposed
      obtain ⟨same, ran⟩ := Bool.and_eq_true_iff.mp ran
      split at ran
      · rename_i last written
        obtain ⟨stops, begins, later⟩ := @disposed_stays_stopped _ _ _ _ _ _ _ _ 9 reached.counted reached.calm.1.2 under
        have kept := begins next (by rw [disposed]; rfl) (.inr fun c => by rw [State.writes, of_decide_eq_true same]; rfl)
        obtain ⟨_, after⟩ := later next last 9 Unit (Program.perform (.write 1 5)) (stops next disposed) (by rw [written]; rfl)
        exact ⟨state, next, last, reached, once, disposed, written, stops next disposed, kept.trans once,
          after.trans (kept.trans once)⟩
      · cases ran
    · cases ran
  · cases ran

/-- A cleanup writes what the reaction has read, which begins its body in the middle of its own disposal. -/
theorem write_of_cleanup_begins_disposed : ∃ state next, Reached Parting.meaning state ∧ state.graph.Under 2 3 ∧
    (Program.perform (.dispose 2)).execute Parting.meaning 9 state = .ok () next ∧
    state.starts 3 = 1 ∧ next.starts 3 = 2 := by
  have ran : (match (readBeforeParting true).execute Parting.meaning 9 { outside := () } with
      | .ok _ state => state.attending &&
        match (Program.perform (.dispose 2)).execute Parting.meaning 9 state with
        | .ok _ next => decide (next.starts 3 = 2)
        | .error _ _ => false
      | .error _ _ => false) = true := by decide +kernel
  split at ran
  · rename_i state returns
    obtain ⟨attending, ran⟩ := Bool.and_eq_true_iff.mp ran
    obtain ⟨under, once⟩ := under_of_attending attending
    split at ran
    · rename_i next disposed
      exact ⟨state, next, .call (.start ()) (readBeforeParting true) 9 returns, under, disposed, once, of_decide_eq_true ran⟩
    · cases ran
  · cases ran

end LiveMarkup.Reactive
