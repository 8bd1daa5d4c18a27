import LiveMarkup.Proofs.Passages
import Mathlib.Logic.Relation

/-!
The queue is emptied one reaction after the other, in rounds. What a run gives does not depend on how many jobs may run
inside each other, as long as these are enough. So a flush comes to its end if every reaction that gets its turn does, and
if there is not always another one.
-/

namespace LiveMarkup.Reactive
open Run

variable {P : Type → Type} {σ ν : Type} {α β : Type}

section Limits

/-- What comes of one run comes of the other, whatever happened before. -/
def Exceeds (less more : Run P σ ν α) : Prop :=
  ∀ state result next, less state = .ok result next → ∃ new, next.history = new ++ state.history ∧
    ∀ earlier, more { state with history := earlier } = .ok result { next with history := new ++ earlier }

def ExceedsAll (less more : Runner P σ ν) : Prop := ∀ {ι : Type} (job : Job P ι), Exceeds (less job) (more job)

variable {less more : Runner P σ ν} {body body' : Run P σ ν α} {state next : State P σ ν} {result : α}

theorem Exceeds.same (exceeds : Exceeds body body') (ok : body state = .ok result next) : body' state = .ok result next := by
  obtain ⟨new, happened, again⟩ := exceeds state result next ok
  have ran := again state.history
  rw [← happened] at ran
  exact ran

theorem Exceeds.bind {first first' : Run P σ ν α} {after after' : α → Run P σ ν β} (one : Exceeds first first')
    (two : ∀ value, Exceeds (after value) (after' value)) : Exceeds (first >>= after) (first' >>= after') := by
  intro state result final ok
  obtain ⟨value, middle, here, there⟩ := bind_ok ok
  obtain ⟨new, happened, again⟩ := one state value middle here
  obtain ⟨newer, later, on⟩ := two value middle result final there
  refine ⟨newer ++ new, by rw [later, happened, List.append_assoc], fun earlier => ?_⟩
  show EStateM.bind first' after' _ = _
  rw [EStateM.bind, again earlier, List.append_assoc]
  exact on (new ++ earlier)

/-- What neither sees nor says what happens. -/
theorem Exceeds.silent (change : Graph P ν → σ → α × Graph P ν × σ)
    (same : ∀ state, body state = .ok (change state.graph state.outside).1
      { state with graph := (change state.graph state.outside).2.1, outside := (change state.graph state.outside).2.2 }) :
    Exceeds body body := by
  intro state result next ok
  cases (same state).symm.trans ok
  exact ⟨[], rfl, fun earlier => same { state with history := earlier }⟩

theorem Exceeds.change (change : Graph P ν → α × Graph P ν) : Exceeds (changeGraph change : Run P σ ν α) (changeGraph change) :=
  .silent (fun graph outside => ((change graph).1, (change graph).2, outside)) fun _ => rfl

theorem Exceeds.alter (change : Graph P ν → Graph P ν) :
    Exceeds (alterGraph change : Run P σ ν Unit) (alterGraph change) := .change fun graph => ((), change graph)

theorem Exceeds.note (happening : Happening) : Exceeds (Run.note happening : Run P σ ν Unit) (Run.note happening) := by
  intro state _ _ ok
  cases ok
  exact ⟨[happening], rfl, fun _ => rfl⟩

theorem Exceeds.rules : RunRules fun (run other : Run P σ ν _) => Exceeds run other where
  pure value := .silent (fun graph outside => (value, graph, outside)) fun _ => rfl
  throw _ := by
    intro _ _ _ ok
    cases ok
  bind := .bind
  seeGraph view := .change fun graph => (view graph, graph)

theorem Exceeds.store (cell : CellId) (value : ν) : Exceeds (store cell value : Run P σ ν Unit) (store cell value) :=
  .bind (.alter _) fun _ => .note _

theorem Exceeds.flush (all : ExceedsAll less more) : Exceeds (flush less) (flush more) := by
  refine Exceeds.rules.see _ fun flushing => ?_
  split
  · exact Exceeds.rules.pure ()
  · exact .bind (.alter _) fun _ => (all .drain).bind fun _ => .alter _

theorem Exceeds.notify (all : ExceedsAll less more) (cell : CellId) : Exceeds (notify less cell) (notify more cell) :=
  Exceeds.rules.notify less more (.alter _) (.flush all)

theorem Exceeds.inBatch (all : ExceedsAll less more) (exceeds : Exceeds body body') :
    Exceeds (inBatch less body) (inBatch more body') := by
  refine .bind (.alter _) fun _ => exceeds.bind fun value => .bind (.alter _) fun _ => Exceeds.rules.see _ fun depth => ?_
  split
  · exact (Exceeds.flush all).bind fun _ => Exceeds.rules.pure value
  · exact Exceeds.rules.pure value

theorem Exceeds.inContext (exceeds : Exceeds body body') (owner observer : Option OwnerId) :
    Exceeds (inContext owner observer body) (inContext owner observer body') :=
  Exceeds.rules.see _ fun _ => .bind (.alter _) fun _ => exceeds.bind fun value => .bind (.alter _) fun _ =>
    Exceeds.rules.pure value

section

variable (all : ExceedsAll less more)
include all

theorem Exceeds.write (cell : CellId) (value : ν) : Exceeds (write less cell value) (write more cell value) :=
  Exceeds.rules.write less more (.bind (.store cell value) fun _ => .notify all cell)

theorem Exceeds.clean (e : OwnerId) : Exceeds (clean less e) (clean more e) := by
  refine Exceeds.rules.see _ fun found => ?_
  cases found with
  | none => exact Exceeds.rules.pure ()
  | some =>
    exact .bind (.alter _) fun _ => (Exceeds.rules.forM _ _ (fun child => all (.dispose child)) _).bind fun _ =>
      (Exceeds.rules.forM _ _ (fun task => all (.perform task)) _).bind fun _ => .alter _

theorem Exceeds.dispose (e : OwnerId) : Exceeds (dispose less e) (dispose more e) :=
  (Exceeds.clean all e).bind fun _ => .alter _

theorem Exceeds.runBody [BEq ν] (body : Body P ν) : Exceeds (runBody less body) (runBody more body) :=
  Exceeds.rules.runBody less more (fun task => all (.perform task)) .store (.write all)

theorem Exceeds.rerun [BEq ν] (e : OwnerId) : Exceeds (rerun less e) (rerun more e) := by
  refine Exceeds.rules.see _ fun found => ?_
  cases found.bind Owner.body with
  | none => exact Exceeds.rules.pure ()
  | some body =>
    exact (Exceeds.clean all e).bind fun _ => .bind (.note _) fun _ => (Exceeds.runBody all body).inContext _ _

theorem Exceeds.drain : Exceeds (drain less) (drain more) := by
  refine Exceeds.rules.see _ fun queue => ?_
  cases queue with
  | nil => exact Exceeds.rules.pure ()
  | cons first => exact .bind (.alter _) fun _ => (all (.rerun first)).bind fun _ => all .drain

theorem Exceeds.newReaction (body : Body P ν) : Exceeds (newReaction less body) (newReaction more body) :=
  .bind (.change _) fun id => (Exceeds.inBatch all (all (.rerun id))).bind fun _ => Exceeds.rules.pure id

theorem Exceeds.steps : RunSteps (fun (run other : Run P σ ν _) => Exceeds run other) less more where
  toRunRules := Exceeds.rules
  state change := .silent (fun graph outside => ((change outside).1, graph, (change outside).2)) fun _ => rfl
  perform task := all (.perform task)
  newSignal value := .change (·.newCell (some value))
  newComputed _ := Exceeds.rules.newComputed less more (.change _) fun _ => .newReaction all _
  newEffect task := .newReaction all (.effect task)
  newRoot := .change (·.newOwner none none)
  onDispose task := .alter (·.addCleanup task)
  dispose := .dispose all
  read _ _ := Exceeds.rules.read (.alter _) fun _ => .note _
  write := .write all
  inBatch := .inBatch all
  unobserved owner exceeds := exceeds.inContext owner none
  update {cell body body'} exceeds := Exceeds.rules.updateCell less more body body' fun old =>
    .bind (.alter _) fun _ => (exceeds old).bind fun value => .bind (.store cell value) fun _ => .bind (.alter _) fun _ =>
      .notify all cell

end

variable [BEq ν] {meaning : Interpretation P σ ν}

theorem ExceedsAll.step (all : ExceedsAll less more) : ExceedsAll (Job.step meaning less) (Job.step meaning more) := by
  intro ι job
  cases job with
  | perform task => exact (Exceeds.steps all).program (meaning task)
  | dispose e => exact .dispose all e
  | rerun e => exact .rerun all e
  | drain => exact .drain all

theorem ExceedsAll.run {low high : Nat} (above : low ≤ high) : ExceedsAll (Job.run meaning low) (Job.run meaning high) := by
  induction low generalizing high with
  | zero =>
    intro ι job state result next ok
    cases ok
  | succ low ih =>
    obtain ⟨high, rfl⟩ := Nat.exists_eq_add_of_lt above
    exact ExceedsAll.step (ih (Nat.le_add_right low high))

theorem Exceeds.execute (program : Program P σ ν α) {low high : Nat} (above : low ≤ high) :
    Exceeds (program.execute meaning low) (program.execute meaning high) := (Exceeds.steps (ExceedsAll.run above)).program program

theorem run_unique {ι : Type} {job : Job P ι} {one two : Nat} {state first second : State P σ ν} {value other : ι}
    (here : Job.run meaning one job state = .ok value first) (there : Job.run meaning two job state = .ok other second) :
    value = other ∧ first = second := by
  have same := ((ExceedsAll.run (Nat.le_max_left one two) job).same here).symm.trans
    ((ExceedsAll.run (Nat.le_max_right one two) job).same there)
  cases same
  exact ⟨rfl, rfl⟩

theorem execute_unique {ι : Type} {program : Program P σ ν ι} {one two : Nat} {state first second : State P σ ν} {value other : ι}
    (here : program.execute meaning one state = .ok value first) (there : program.execute meaning two state = .ok other second) :
    value = other ∧ first = second := by
  have same := ((Exceeds.execute program (Nat.le_max_left one two)).same here).symm.trans
    ((Exceeds.execute program (Nat.le_max_right one two)).same there)
  cases same
  exact ⟨rfl, rfl⟩

end Limits

section Rounds

variable [BEq ν] {meaning : Interpretation P σ ν} {state next last : State P σ ν}

def State.withQueue (state : State P σ ν) (queue : List OwnerId) : State P σ ν :=
  { state with graph := { state.graph with queue } }

def Round (meaning : Interpretation P σ ν) (state next : State P σ ν) : Prop :=
  ∃ first rest fuel, state.graph.queue = first :: rest ∧
    Job.run meaning fuel (.rerun first) (state.withQueue rest) = .ok () next

abbrev Rounds (meaning : Interpretation P σ ν) : State P σ ν → State P σ ν → Prop := Relation.ReflTransGen (Round meaning)

theorem Round.unique (one : Round meaning state next) (two : Round meaning state last) : next = last := by
  obtain ⟨_, _, _, waiting, here⟩ := one
  obtain ⟨_, _, _, waiting', there⟩ := two
  obtain ⟨rfl, rfl⟩ := List.cons.inj (waiting.symm.trans waiting')
  exact (run_unique here there).2

theorem drain_iff : (∃ fuel, Job.run meaning fuel .drain state = .ok () last) ↔
    Rounds meaning state last ∧ last.graph.queue = [] := by
  constructor
  · rintro ⟨fuel, ok⟩
    induction fuel generalizing state with
    | zero => cases ok
    | succ fuel ih =>
      change drain (Job.run meaning fuel) state = _ at ok
      rw [drain, run_see] at ok
      cases waiting : state.graph.queue with
      | nil =>
        rw [waiting] at ok
        cases ok
        exact ⟨.refl, waiting⟩
      | cons first rest =>
        rw [waiting] at ok
        obtain ⟨_, _, here, ok⟩ := bind_ok ok
        cases here
        obtain ⟨_, _, here, ok⟩ := bind_ok ok
        obtain ⟨rounds, empty⟩ := ih ok
        exact ⟨.head ⟨first, rest, fuel, waiting, here⟩ rounds, empty⟩
  · rintro ⟨rounds, empty⟩
    induction rounds using Relation.ReflTransGen.head_induction_on with
    | refl =>
      refine ⟨1, ?_⟩
      show drain _ last = _
      rw [drain, run_see, empty]
      rfl
    | @head state middle round _ ih =>
      obtain ⟨more, drained⟩ := ih
      obtain ⟨first, rest, fuel, waiting, here⟩ := round
      have turn : Job.run meaning (max fuel more) (.rerun first) (state.withQueue rest) = .ok () middle :=
        (ExceedsAll.run (Nat.le_max_left fuel more) _).same here
      have onward : Job.run meaning (max fuel more) .drain middle = .ok () last :=
        (ExceedsAll.run (Nat.le_max_right fuel more) _).same drained
      refine ⟨max fuel more + 1, ?_⟩
      show drain (Job.run meaning (max fuel more)) state = _
      rw [drain, run_see, waiting]
      show EStateM.bind (Job.run meaning _ (.rerun first)) _ (state.withQueue rest) = _
      rw [EStateM.bind, turn]
      exact onward

/-- Every reaction that gets its turn from some state on comes to its end. -/
def Returning (meaning : Interpretation P σ ν) (state : State P σ ν) : Prop :=
  ∀ later, Rounds meaning state later → later.graph.queue ≠ [] → ∃ next, Round meaning later next

theorem Returning.of_drain {fuel : Nat} (ok : Job.run meaning fuel .drain state = .ok () last) : Returning meaning state := by
  obtain ⟨rounds, empty⟩ := drain_iff.mp ⟨fuel, ok⟩
  intro later before waits
  -- there is only one way on from each state, so `later` lies on the way to the last one
  have onward : Rounds meaning later last := by
    clear waits
    induction before with
    | refl => exact rounds
    | tail _ round ih =>
      rcases Relation.ReflTransGen.cases_head ih with rfl | ⟨next, round', onward⟩
      · obtain ⟨_, _, _, waiting, _⟩ := round
        simp [empty] at waiting
      · exact round.unique round' ▸ onward
  rcases Relation.ReflTransGen.cases_head onward with rfl | ⟨next, round, _⟩
  · exact absurd empty waits
  · exact ⟨next, round⟩

theorem Returning.drains {γ : Type} {rank : γ → γ → Prop} {holds : State P σ ν → Prop} (measure : State P σ ν → γ)
    (wellFounded : WellFounded rank)
    (falls : ∀ one two, holds one → Round meaning one two → holds two ∧ rank (measure two) (measure one))
    (begins : holds state) (returning : Returning meaning state) :
    ∃ fuel last, Job.run meaning fuel .drain state = .ok () last ∧ holds last ∧ last.graph.queue = [] := by
  suffices ∃ last, Rounds meaning state last ∧ last.graph.queue = [] ∧ holds last by
    obtain ⟨last, rounds, empty, holds⟩ := this
    obtain ⟨fuel, ok⟩ := drain_iff.mpr ⟨rounds, empty⟩
    exact ⟨fuel, last, ok, holds, empty⟩
  induction h : measure state using wellFounded.induction generalizing state with
  | _ level ih =>
    subst h
    by_cases empty : state.graph.queue = []
    · exact ⟨state, .refl, empty, begins⟩
    · obtain ⟨next, round⟩ := returning state .refl empty
      obtain ⟨held, lower⟩ := falls state next begins round
      obtain ⟨last, rounds, done⟩ := ih _ lower held (fun later after => returning later (.head round after)) rfl
      exact ⟨last, .head round rounds, done⟩

end Rounds

end LiveMarkup.Reactive
