import LiveMarkup.Proofs.NestedRuns
import Mathlib.Data.Prod.Basic
import Mathlib.Order.RelClasses

/-!
Reactions that write when they are cleaned. What a reaction has left to its cleanups is done before it runs anew, and while it
is still subscribed to what it has read. So it gets another turn if its cleanups write something that it has read. If they
only write something else, then one write makes it run anew once, and nobody waits any more in the end.
-/

namespace LiveMarkup.Reactive

variable {P : Type → Type} {σ ν : Type} {queue : List OwnerId}

section Rests

variable {cast : Cast P} {begun state next : State P σ ν} {special : Option OwnerId} {spared : Set OwnerId} {deaf : Prop}
  {e x : OwnerId} {rest : List OwnerId}
variable {meaning : Interpretation P σ ν} {fuel : Nat}

def State.resting (begun : State P σ ν) (special : Option OwnerId) (spared : Set OwnerId) (deaf : Prop) (queue : List OwnerId) :
    Stage P σ ν :=
  { begun.waiting with
    special, spared, queue, deaf
    pending := Set.univ
    loud := False }

def Rests (cast : Cast P) (begun : State P σ ν) (special : Option OwnerId) (spared : Set OwnerId) (deaf : Prop)
    (state : State P σ ν) : Prop :=
  (begun.resting special spared deaf state.graph.queue).Acting cast state

theorem Rests.turned [BEq ν] (fits : cast.Fits meaning) (rests : Rests cast begun special spared deaf state)
    (waiting : state.graph.queue = x :: rest) (plain : special ≠ some x) (loose : x ∉ spared)
    (ran : Job.run meaning fuel (.rerun x) (state.withQueue rest) = .ok () next) :
    (begun.resting special spared deaf rest).Acting cast next ∧ state.graph.Grows next.graph := by
  have popped : (begun.resting special spared deaf rest).Acting cast (state.withQueue rest) := rests.pop waiting False
  have turn : (begun.resting special spared deaf rest).Turn cast x (state.withQueue rest) :=
    ⟨popped.awaiting x, fun o found => popped.apart x o found loose, fun begins => absurd (Set.mem_univ x) begins⟩
  obtain ⟨acting, follows⟩ := (PlaysAll.run fits fuel).rerun _ x plain _ _ _ turn ran
  exact ⟨acting, follows.grows.nextId_le, follows.grows.bodies⟩

theorem Rests.ends [BEq ν] {meaning : Interpretation P σ ν} {fuel : Nat} (rests : Rests cast begun special spared deaf state)
    (waiting : state.graph.queue = x :: rest) (ran : Job.run meaning fuel (.rerun x) (state.withQueue rest) = .ok () next) :
    Ends False {x} (state.withQueue rest) next :=
  ((Going.run meaning fuel).rerun x).ends (rests.pop waiting False).counted ran

theorem Rests.others [BEq ν] (rests : Rests cast begun special spared deaf state) (waiting : state.graph.queue = x :: rest)
    (ran : Job.run meaning fuel (.rerun x) (state.withQueue rest) = .ok () next) (old : e < begun.graph.nextId)
    (apart : e ≠ x) : next.starts e = state.starts e :=
  (rests.ends waiting ran).held (.inl rests.flushing) e (old.trans_le rests.since) apart

theorem Rests.itself [BEq ν] (fits : cast.Fits meaning) (rests : Rests cast begun (some e) spared True state)
    (waiting : state.graph.queue = e :: rest) {o : Owner P ν} (found : state.graph.owners.get? e = some o)
    (acts : o.body.isSome) (ran : Job.run meaning fuel (.rerun e) (state.withQueue rest) = .ok () next) :
    ∃ queue, e ∉ queue ∧ (begun.resting (some e) ∅ False queue).Acting cast next ∧ next.starts e = state.starts e + 1 := by
  cases fuel with
  | zero => cases ran
  | succ fuel =>
    have ran : Run.rerun (Job.run meaning fuel) e (state.withQueue rest) = .ok () next := ran
    have there : (state.withQueue rest).graph.owners.get? e = some o := found
    have once := ((Going.run meaning fuel).begins (rests.pop waiting True).counted (.inl rests.flushing) there acts ran).1
    obtain ⟨body, what⟩ := Option.isSome_iff_exists.mp acts
    obtain ⟨task, rfl, plays⟩ := (rests.casts e o found).body body what
    rw [State.resting, Part.of, if_pos rfl] at plays
    rw [Run.rerun, run_see, there, Option.bind_some, what] at ran
    have apart : e ∉ rest := fun mem => lt_irrefl e ((List.pairwise_cons.mp (waiting ▸ rests.sorted)).1 e mem)
    let parting : Stage P σ ν := { begun.resting (some e) ∅ True rest with loud := True }
    have opened : parting.Acting cast (state.withQueue rest) :=
      (rests.pop waiting True).sparing ∅ (fun _ => rfl) (fun _ => False.elim) fun _ _ _ _ _ _ => id
    obtain ⟨_, cleaned, here, ran⟩ := bind_ok ran
    obtain ⟨closed, _⟩ := Leads.cleaned (PlaysAll.run fits fuel) e (fun _ => trivial) _ _ _
      ⟨opened, fun _ _ _ _ => id⟩ here
    have away : e ∉ cleaned.graph.queue := fun mem => apart ((closed.unheard trivial e rfl).2.2 mem)
    obtain ⟨_, _, here, ran⟩ := bind_ok ran
    cases here
    have old : e < cleaned.graph.nextId := (opened.special_old e rfl).trans_le closed.since
    have begins := (Stage.Acting.began parting (closed.awaiting e) old fun late => absurd (Set.mem_univ e) late).requeue False
    -- from here on the reaction may read anything, and nobody writes
    have begins : (begun.resting (some e) ∅ False cleaned.graph.queue).Acting cast
        { cleaned with history := .began e :: cleaned.history } := { begins with unheard := False.elim }
    obtain ⟨acting, _⟩ := Leads.elsewhere ((PlaysAll.run fits fuel).perform task plays _ ⟨e, rfl, rfl⟩) False.elim
      _ _ _ begins ran
    exact ⟨_, away, acting, once⟩

theorem Stage.Acting.ended (acting : (begun.resting (some e) spared deaf queue).Acting cast state)
    (gone : state.graph.ownerAlive e = false) : Rests cast begun none ∅ False state :=
  { acting.requeue False with
    special_old := fun _ special => by cases special
    disposes := fun _ => rfl
    stays := fun _ => False.elim
    apart := fun _ _ _ _ _ _ => id
    shrinks := fun _ => .inl (List.Sublist.refl _)
    casts := fun x o found => by
      have apart : e ≠ x := by
        rintro rfl
        simp [Graph.ownerAlive, Table.contains, found] at gone
      have covers := acting.casts x o found
      refine ⟨fun body what => ?_, fun task mem => .inl ?_⟩
      · have plays := covers.body body what
        rwa [State.resting, Part.of, if_neg fun same => apart (Option.some.inj same)] at plays
      · exact (covers.cleanups task mem).resolve_right fun own => apart (Option.some.inj own.1)
    unheard := False.elim }

end Rests

section Courses

/-- How far a reaction that was queued has come: it waits for its turn, it has had one, or it is gone. Unless it is spared, it
may go before its turn. -/
inductive Course (cast : Cast P) (begun : State P σ ν) (e : OwnerId) (spared : Set OwnerId) (state : State P σ ν) : Prop where
  | waits (rests : Rests cast begun (some e) spared True state) (alive : state.graph.ownerAlive e = true)
      (reaction : state.graph.IsReaction e) (queued : e ∈ state.graph.queue) (starts : state.starts e = begun.starts e)
      (alone : ∀ x ∈ state.graph.queue, x ∈ spared → x = e)
  | ran (rests : Rests cast begun (some e) ∅ False state) (alive : state.graph.ownerAlive e = true)
      (away : e ∉ state.graph.queue) (starts : state.starts e = begun.starts e + 1)
  | gone (rests : Rests cast begun none ∅ False state) (dead : state.graph.ownerAlive e = false)
      (starts : state.starts e = begun.starts e + 1 ∨ state.starts e = begun.starts e ∧ e ∉ spared)

variable {cast : Cast P} {begun state next : State P σ ν} {spared : Set OwnerId} {e x : OwnerId} {rest : List OwnerId}

def State.ahead (e : OwnerId) (state : State P σ ν) : Nat × Nat :=
  (if state.graph.ownerAlive e then if e ∈ state.graph.queue then 2 else 1 else 0, state.graph.queue.length)

def Nearer : Nat × Nat → Nat × Nat → Prop := Prod.Lex (· < ·) (· < ·)

theorem nearer_wellFounded : WellFounded Nearer := WellFounded.prod_lex Nat.lt_wfRel.wf Nat.lt_wfRel.wf

theorem nearer_of_sublist (waiting : state.graph.queue = x :: rest) (less : next.graph.queue.Sublist rest)
    (same : (next.ahead e).1 = (state.ahead e).1) : Nearer (next.ahead e) (state.ahead e) := by
  refine Prod.lex_iff.mpr (.inr ⟨same, ?_⟩)
  show next.graph.queue.length < state.graph.queue.length
  rw [waiting]
  exact Nat.lt_succ_of_le less.length_le

theorem nearer_of_turn (less : (next.ahead e).1 < (state.ahead e).1) : Nearer (next.ahead e) (state.ahead e) :=
  Prod.lex_iff.mpr (.inl less)

theorem Stage.Acting.fewer {deaf : Prop}
    (acting : (begun.resting (some e) spared deaf queue).Acting cast state) (alive : state.graph.ownerAlive e = true) :
    state.graph.queue.Sublist queue := by
  refine (acting.shrinks not_false).resolve_right ?_
  rintro ⟨_, same, gone⟩
  cases same
  rw [gone] at alive
  cases alive

variable [BEq ν] {meaning : Interpretation P σ ν}

theorem Course.step (fits : cast.Fits meaning) (old : e < begun.graph.nextId) (course : Course cast begun e spared state)
    (round : Round meaning state next) : Course cast begun e spared next ∧ Nearer (next.ahead e) (state.ahead e) := by
  obtain ⟨x, rest, _, waiting, ran⟩ := round
  cases course with
  | waits rests alive reaction queued starts alone =>
    by_cases same : x = e
    · -- its own turn
      subst same
      obtain ⟨o, found⟩ := Option.isSome_iff_exists.mp alive
      obtain ⟨_, away, acting, begins⟩ := rests.itself fits waiting found (reaction.2 o found) ran
      have once : next.starts x = begun.starts x + 1 := begins.trans (congrArg Nat.succ starts)
      cases present : next.graph.ownerAlive x with
      | true =>
        have left : x ∉ next.graph.queue := fun mem => away ((acting.fewer present).subset mem)
        exact ⟨.ran (acting.requeue False) present left once,
          nearer_of_turn (by simp [State.ahead, alive, queued, present, left])⟩
      | false =>
        exact ⟨.gone (acting.ended present) present (.inl once),
          nearer_of_turn (by simp [State.ahead, alive, queued, present])⟩
    · have loose : x ∉ spared := fun mem => same (alone x (by simp [waiting]) mem)
      obtain ⟨acting, grows⟩ := rests.turned fits waiting (fun own => same (Option.some.inj own).symm) loose ran
      have still : next.starts e = begun.starts e := (rests.others waiting ran old (Ne.symm same)).trans starts
      cases present : next.graph.ownerAlive e with
      | true =>
        have less := acting.fewer present
        have later : e ∈ rest := (List.mem_cons.mp (waiting ▸ queued)).resolve_left (Ne.symm same)
        have mem : e ∈ next.graph.queue := acting.kept e later old present
        refine ⟨.waits (acting.requeue False) present (reaction.grow grows) mem still fun y waits => ?_,
          nearer_of_sublist waiting less (by simp [State.ahead, alive, queued, present, mem])⟩
        exact alone y (waiting ▸ List.mem_cons_of_mem x (less.subset waits))
      | false =>
        have free : e ∉ spared := fun mem => by
          rw [acting.stays e mem] at present
          cases present
        exact ⟨.gone (acting.ended present) present (.inr ⟨still, free⟩),
          nearer_of_turn (by simp [State.ahead, alive, queued, present])⟩
  | ran rests alive away starts =>
    have apart : e ≠ x := fun same => away (by simp [waiting, same])
    obtain ⟨acting, _⟩ := rests.turned fits waiting (fun own => apart (Option.some.inj own)) (Set.notMem_empty x) ran
    have once := (rests.others waiting ran old apart).trans starts
    cases present : next.graph.ownerAlive e with
    | true =>
      have less := acting.fewer present
      have left : e ∉ next.graph.queue := fun mem => away (waiting ▸ List.mem_cons_of_mem x (less.subset mem))
      exact ⟨.ran (acting.requeue False) present left once,
        nearer_of_sublist waiting less (by simp [State.ahead, alive, away, present, left])⟩
    | false =>
      exact ⟨.gone (acting.ended present) present (.inl once), nearer_of_turn (by simp [State.ahead, alive, away, present])⟩
  | gone rests dead starts =>
    obtain ⟨acting, _⟩ := rests.turned fits waiting (by simp) (Set.notMem_empty x) ran
    have less : next.graph.queue.Sublist rest := (acting.shrinks not_false).resolve_right fun ⟨_, same, _⟩ => by cases same
    obtain ⟨dead', same⟩ := (rests.ends waiting ran).gone e (old.trans_le rests.since) dead
    have same : next.starts e = state.starts e := same
    exact ⟨.gone (acting.requeue False) dead' (same ▸ starts),
      nearer_of_sublist waiting less (by simp [State.ahead, dead, dead'])⟩

end Courses

section Flushes

variable {state : State P σ ν} {cell : CellId} {slot : Cell ν} {old : ν}

/-- The state in which reactions begin to get their turns after a write. -/
def Put.begun (put : Put ν) (state : State P σ ν) (cell : CellId) (old : ν) : State P σ ν :=
  { put.queued state cell old with graph := { (put.queued state cell old).graph with flushing := true } }

theorem Put.begins (put : Put ν) (idle : state.graph.queue = []) (cell : CellId) (old : ν) :
    Begun [cell] state (put.begun state cell old) := by
  have wrote := put.queued_wrote state cell old
  obtain ⟨cells, queue, same⟩ := wrote.frame
  refine ⟨⟨cells, queue, ?_⟩, wrote.readers, fun e => (wrote.queue e).trans ?_, wrote.sorted (by simp [idle]), wrote.starts⟩
  · rw [Put.begun, same]
  · simp [idle]

theorem Put.run_begun (self : Runner P σ ν) (put : Put ν) (still : state.graph.flushing = false)
    (flat : state.graph.batchDepth = 0) (found : state.graph.cells.get? cell = some slot) (free : slot.inUse = false)
    (held : slot.value = some old) :
    (put.program cell).run self state = (self .drain >>= fun _ => Run.alterGraph fun graph => { graph with flushing := false })
      (put.begun state cell old) := by
  obtain ⟨_, _, same⟩ := (put.queued_wrote state cell old).frame
  have still : (put.queued state cell old).graph.flushing = false := by
    rw [same]
    exact still
  rw [Put.run_queued self put found free held, if_pos flat, flush_eq self still, Put.begun]

variable [BEq ν] {meaning : Interpretation P σ ν} {cast : Cast P} {e : OwnerId}

theorem Begun.course {cells : List CellId} {begun : State P σ ν} {spared : Set OwnerId} (begins : Begun cells state begun)
    (reached : Reached meaning state) (covers : ∀ x o, state.graph.owners.get? x = some o → cast.Covers (some e) x o)
    (alive : begun.graph.ownerAlive e = true) (queued : e ∈ begun.graph.queue)
    (deaf : ∀ c ∈ cast.written, ∀ slot, begun.graph.cells.get? c = some slot → e ∉ slot.subscribers)
    (disposes : cast.disposes → spared = ∅) (stays : ∀ x ∈ spared, begun.graph.ownerAlive x = true)
    (apart : ∀ p q, begun.graph.owners.get? p = some q → p ∉ spared → ∀ x ∈ q.children, x ∉ spared)
    (alone : ∀ x ∈ begun.graph.queue, x ∈ spared → x = e) : Course cast begun e spared begun := by
  obtain ⟨reaction, old⟩ := begins.reaction reached queued
  have observer : begun.graph.observer = none := by
    obtain ⟨_, _, same⟩ := begins.frame
    rw [same]
    exact reached.kept.1.observer_eq
  have acting := begins.acting (begins.orderly reached).counted covers fun x same => by
    cases same
    exact old
  have rests := (acting.requeue False).sparing spared disposes stays apart
  refine .waits ?_ alive reaction queued rfl alone
  exact { rests with
    fresh := fun x _ _ _ _ late => absurd (Set.mem_univ x) late
    unheard := fun _ x same => by
      cases same
      exact ⟨by simp [State.resting, State.waiting, observer], deaf, id⟩ }

/-- If the cleanups of a reaction write nothing that it has read, and nobody else writes, then a write of something that
it has read makes it run anew once, and nobody waits in the end, unless it goes before, because somebody disposes it or
a reaction that it belongs to runs anew. -/
theorem runs_once_if_cleanups_write_elsewhere {put : Put ν} (fits : cast.Fits meaning) (reached : Reached meaning state)
    (covers : ∀ x o, state.graph.owners.get? x = some o → cast.Covers (some e) x o) (alive : state.graph.ownerAlive e = true)
    (found : state.graph.cells.get? cell = some slot) (held : slot.value = some old) (reads : e ∈ slot.subscribers)
    (deaf : ∀ c ∈ cast.written, ∀ slot, state.graph.cells.get? c = some slot → e ∉ slot.subscribers)
    (returning : Returning meaning (put.begun state cell old)) :
    ∃ fuel next, (∀ more, fuel ≤ more → (put.program cell).execute meaning more state = .ok () next) ∧ next.graph.queue = [] ∧
      (next.starts e = state.starts e + 1 ∨ next.starts e = state.starts e ∧ next.graph.ownerAlive e = false ∧
        (cast.disposes ∨ ∃ a ∈ slot.subscribers, a ≠ e ∧ state.graph.Under a e)) := by
  obtain ⟨⟨_, idle⟩, still, flat⟩ := reached.calm
  have begins := put.begins (idle still flat) cell old
  obtain ⟨_, _, same⟩ := begins.frame
  have owners : (put.begun state cell old).graph.owners = state.graph.owners := by rw [same]
  have queue : ∀ x, x ∈ (put.begun state cell old).graph.queue ↔ x ∈ slot.subscribers := fun x => by
    simp [begins.queue, State.Reads, found]
  let excused : Prop := cast.disposes ∨ ∃ a ∈ slot.subscribers, a ≠ e ∧ state.graph.Under a e
  -- whoever the reaction belongs to stays until its turn, unless there is an excuse
  let spared : Set OwnerId := {x | state.graph.Under x e ∧ ¬ excused}
  have course : Course cast (put.begun state cell old) e spared (put.begun state cell old) := by
    refine begins.course reached covers ?_ ((queue e).mpr reads) ?_ ?_ ?_ ?_ ?_
    · simpa only [Graph.ownerAlive, owners] using alive
    · intro c written slot there inside
      obtain ⟨slot', there', inside'⟩ := (read_iff (begins.readers c) e).mp ⟨slot, there, inside⟩
      exact deaf c written slot' there' inside'
    · exact fun disposes => Set.eq_empty_of_forall_notMem fun x inside => inside.2 (.inl disposes)
    · exact fun x inside => by simpa only [Graph.ownerAlive, owners] using inside.1.alive
    · intro p q there free x child inside
      rw [owners] at there
      exact free ⟨(Graph.Under.listed (.top (Option.isSome_iff_exists.mpr ⟨q, there⟩)) there child).trans inside.1, inside.2⟩
    · intro x waits inside
      by_contra apart
      exact inside.2 (.inr ⟨x, (queue x).mp waits, apart, inside.1⟩)
  have known : e < (put.begun state cell old).graph.nextId := (begins.reaction reached ((queue e).mpr reads)).2
  obtain ⟨fuel, last, drained, course, empty⟩ := Returning.drains (State.ahead e) nearer_wellFounded
    (fun _ _ course round => course.step fits known round) course returning
  refine ⟨fuel, { last with graph := { last.graph with flushing := false } }, fun more enough => ?_, empty, ?_⟩
  · have free : slot.inUse = false := by
      by_contra busy
      exact reached.kept.1.used cell slot found (Bool.eq_true_of_not_eq_false busy)
    have drained : Job.run meaning more .drain (put.begun state cell old) = .ok () last :=
      (ExceedsAll.run enough _).same drained
    show (put.program cell).run (Job.run meaning more) state = _
    rw [Put.run_begun _ put still flat found free held]
    exact ok_then drained
  · have starts : (put.begun state cell old).starts e = state.starts e := begins.starts e
    cases course with
    | waits _ _ _ queued => simp [empty] at queued
    | ran _ _ _ once => exact .inl (starts ▸ once)
    | gone _ dead once =>
      refine once.imp (starts ▸ ·) fun unharmed => ⟨unharmed.1.trans starts, dead, ?_⟩
      by_contra excuse
      exact unharmed.2 ⟨.top alive, excuse⟩

end Flushes

/-- A reaction that says farewell, once, before it runs anew. -/
inductive Farewell : Type → Type where
  /-- Leaves a farewell and reads a cell. -/
  | watch (cell written again : CellId) : Farewell Unit
  /-- Writes a cell, unless that has been done already. -/
  | leave (written again : CellId) : Farewell Unit

def Farewell.meaning : Interpretation Farewell Unit Nat
  | _, .watch cell written again => do
    Program.perform (.onDispose (.leave written again))
    let _ ← Program.get true cell
  | _, .leave written again => do
    let left ← Program.get false again
    if left = 0 then return
    Program.perform (.write again 0)
    Program.perform (.write written 9)

def Farewell.Plays (written again : CellId) : Part → {ι : Type} → Farewell ι → Prop
  | .own, _, .watch _ one other => one = written ∧ other = again
  | .parting, _, .leave one other => one = written ∧ other = again
  | _, _, _ => False

def Farewell.cast (written again : CellId) : Cast Farewell where
  plays := Farewell.Plays written again
  written := {written, again}
  disposes := False

theorem Farewell.fits (written again : CellId) : (Farewell.cast written again).Fits Farewell.meaning := by
  intro part ι task plays
  cases task with
  | watch cell one other =>
    cases part with
    | own =>
      have leaves : (Command.onDispose (.leave one other) : Command Farewell Unit Nat Unit).Suits
          (Farewell.cast written again) .own := .inr ⟨rfl, plays⟩
      exact (Program.suits_perform leaves).bind fun _ => (Program.suits_get true cell).bind fun _ => trivial
    | other | parting => exact plays.elim
  | leave one other =>
    cases part with
    | parting =>
      obtain ⟨rfl, rfl⟩ := plays
      have writes : ∀ {cell} (value : Nat), cell ∈ (Farewell.cast one other).written →
          (Program.perform (.write cell value) : Program Farewell Unit Nat Unit).Suits (Farewell.cast one other) .parting :=
        fun _ mem => Program.suits_perform ⟨rfl, mem⟩
      refine (Program.suits_get false other).bind fun left => ?_
      split
      · trivial
      · exact (writes 0 (.inr rfl)).bind fun _ => writes 9 (.inl rfl)
    | own | other => exact plays.elim

def makeFarewell (written : CellId) : Program Farewell Unit Nat Unit := do
  let cell ← Program.perform (.newSignal 0)
  let _ ← Program.perform (.newSignal 0)
  let again ← Program.perform (.newSignal 1)
  let _ ← Program.perform (.newEffect (.watch cell written again))

def State.watching (state : State Farewell Unit Nat) (written : CellId) : Bool :=
  (state.graph.owners.entries.all fun entry => entry.1 == 4 &&
    (match entry.2.body with
    | some (.effect (.watch _ one other)) => one == written && other == 3
    | _ => false) &&
    entry.2.cleanups.all fun
    | .leave one other => one == written && other == 3
    | _ => false) &&
  state.graph.ownerAlive 4 &&
  decide ((state.graph.cells.get? 1).map (fun slot => (slot.value, slot.subscribers)) = some (some 0, [4])) &&
  decide ((state.graph.cells.get? 2).map Cell.subscribers = some []) &&
  decide ((state.graph.cells.get? 3).map Cell.subscribers = some [])

theorem covers_of_watching {state : State Farewell Unit Nat} {written : CellId} (watching : state.watching written = true)
    {e : OwnerId} {o : Owner Farewell Nat} (found : state.graph.owners.get? e = some o) :
    (Farewell.cast written 3).Covers (some 4) e o := by
  simp only [State.watching, Bool.and_eq_true, List.all_eq_true, beq_iff_eq] at watching
  obtain ⟨⟨rfl, acts⟩, leaves⟩ := watching.1.1.1.1 _ (Table.mem_of_get? found)
  refine ⟨fun body what => ?_, fun task mem => .inr ⟨rfl, ?_⟩⟩
  · rw [what] at acts
    cases body with
    | effect task =>
      refine ⟨task, rfl, ?_⟩
      cases task with
      | watch => simpa [Part.of, Farewell.cast, Farewell.Plays] using acts
      | leave => cases acts
    | computed => cases acts
  · have known := leaves task mem
    cases task with
    | watch => cases known
    | leave => simpa [Farewell.cast, Farewell.Plays] using known

theorem runs_once_if_cleanups_write_elsewhere_farewell : ∃ state fuel next, Reached Farewell.meaning state ∧
    ((Put.set 5).program 1).execute Farewell.meaning fuel state = .ok () next ∧ next.graph.queue = [] ∧
    next.starts 4 = state.starts 4 + 1 := by
  have ran : (match (makeFarewell 2).execute Farewell.meaning 9 { outside := () } with
      | .ok _ state => state.watching 2 &&
        match Job.run Farewell.meaning 9 .drain ((Put.set 5).begun state 1 0) with
        | .ok _ _ => true
        | .error _ _ => false
      | .error _ _ => false) = true := by decide +kernel
  split at ran
  · rename_i state returns
    obtain ⟨watching, ran⟩ := Bool.and_eq_true_iff.mp ran
    split at ran
    · rename_i last drained
      have reached : Reached Farewell.meaning state := .call (.start ()) (makeFarewell 2) 9 returns
      have covers : ∀ x o, state.graph.owners.get? x = some o → (Farewell.cast 2 3).Covers (some 4) x o :=
        fun _ _ found => covers_of_watching watching found
      simp only [State.watching, Bool.and_eq_true, decide_eq_true_eq] at watching
      obtain ⟨⟨⟨⟨_, alive⟩, reads⟩, unread⟩, unread'⟩ := watching
      obtain ⟨slot, found, holds⟩ := Option.map_eq_some_iff.mp reads
      obtain ⟨value, readers⟩ := Prod.mk.inj holds
      have deaf : ∀ c ∈ (Farewell.cast 2 3).written, ∀ slot, state.graph.cells.get? c = some slot → 4 ∉ slot.subscribers := by
        rintro c (rfl | rfl) slot there <;> simp_all
      obtain ⟨fuel, next, runs, empty, once⟩ :=
        runs_once_if_cleanups_write_elsewhere (Farewell.fits 2 3) reached covers alive found value
          (by simp [readers]) deaf (.of_drain drained)
      refine ⟨state, fuel, next, reached, runs fuel (Nat.le_refl fuel), empty, once.resolve_right ?_⟩
      rintro ⟨_, _, disposes | ⟨a, inside, apart, _⟩⟩
      · exact disposes
      · simp [readers, apart] at inside
    · cases ran
  · cases ran

/-- A cleanup writes what the reaction has read, which gives it another turn. -/
theorem write_of_cleanup_rouses_again : ∃ state next, Reached Farewell.meaning state ∧
    (∀ x o, state.graph.owners.get? x = some o → (Farewell.cast 1 3).Covers (some 4) x o) ∧
    state.graph.ownerAlive 4 = true ∧ state.Reads [1] 4 ∧
    ((Put.set 5).program 1).execute Farewell.meaning 9 state = .ok () next ∧ next.starts 4 = state.starts 4 + 2 := by
  have ran : (match (makeFarewell 1).execute Farewell.meaning 9 { outside := () } with
      | .ok _ state => state.watching 1 &&
        match ((Put.set 5).program 1).execute Farewell.meaning 9 state with
        | .ok _ next => decide (next.starts 4 = state.starts 4 + 2)
        | .error _ _ => false
      | .error _ _ => false) = true := by decide +kernel
  split at ran
  · rename_i state returns
    obtain ⟨watching, ran⟩ := Bool.and_eq_true_iff.mp ran
    split at ran
    · rename_i next written
      have covers : ∀ x o, state.graph.owners.get? x = some o → (Farewell.cast 1 3).Covers (some 4) x o :=
        fun _ _ found => covers_of_watching watching found
      simp only [State.watching, Bool.and_eq_true, decide_eq_true_eq] at watching
      obtain ⟨slot, found, holds⟩ := Option.map_eq_some_iff.mp watching.1.1.2
      have reads : state.Reads [1] 4 := ⟨1, by simp, slot, found, by simp [(Prod.mk.inj holds).2]⟩
      exact ⟨state, next, .call (.start ()) (makeFarewell 1) 9 returns, covers, watching.1.1.1.2, reads, written,
        of_decide_eq_true ran⟩
    · cases ran
  · cases ran

end LiveMarkup.Reactive
