import LiveMarkup.Live.Dispatch
import LiveMarkup.Live.Meaning
import LiveMarkup.Proofs.DocumentOrder
import LiveMarkup.Proofs.Execution

/-!
The order in which an event calls its handlers. It stops by at the nodes above its target from the outermost inwards, at the
target, and, if it bubbles, at the nodes above it again from the nearest outwards; it goes on from a node unless it is stopped
there. Handlers may do anything but change who listens and where the event is.
-/

namespace LiveMarkup.Document
open List

section Ascending

variable {η π : Type} {doc : Document η π} {n : NodeId} {path : List NodeId}

/-- The nodes above a node, the nearest first, up to one without a parent. -/
inductive Ascends (doc : Document η π) : NodeId → List NodeId → Prop
  | top {n : NodeId} (alone : doc.parent? n = none) : Ascends doc n []
  | up {n parent : NodeId} {path : List NodeId} (above : doc.parent? n = some parent) (higher : Ascends doc parent path) :
      Ascends doc n (parent :: path)

namespace Ascends

section

variable (ascends : doc.Ascends n path)
include ascends

theorem unique {other : List NodeId} (also : doc.Ascends n other) : path = other := by
  induction ascends generalizing other with
  | top alone =>
    cases also with
    | top => rfl
    | up above => simp [alone] at above
  | up above _ ih =>
    cases also with
    | top alone => simp [alone] at above
    | up again higher =>
      obtain rfl := Option.some.inj (above.symm.trans again)
      rw [ih higher]

theorem from_mem {m : NodeId} (mem : m ∈ path) : ∃ higher, doc.Ascends m higher ∧ higher.length < path.length := by
  induction ascends with
  | top => cases mem
  | up _ higher ih =>
    rcases mem_cons.mp mem with rfl | mem
    · exact ⟨_, higher, Nat.lt_succ_self _⟩
    · obtain ⟨path, ascends, shorter⟩ := ih mem
      exact ⟨path, ascends, Nat.lt_succ_of_lt shorter⟩

theorem nodup : (n :: path).Nodup := by
  induction ascends with
  | top => exact nodup_singleton _
  | up above higher ih =>
    refine nodup_cons.mpr ⟨fun mem => ?_, ih⟩
    obtain ⟨_, again, shorter⟩ := from_mem (.up above higher) mem
    rw [again.unique (.up above higher)] at shorter
    exact lt_irrefl _ shorter

theorem lt_size : ∀ m ∈ (n :: path).dropLast, m < doc.nodes.size := by
  induction ascends with
  | top => simp
  | @up _ _ _ above _ ih =>
    intro m mem
    rw [dropLast_cons_of_ne_nil (cons_ne_nil _ _)] at mem
    rcases mem_cons.mp mem with rfl | mem
    · by_contra outside
      simp [parent?, node?, Array.getElem?_eq_none (not_lt.mp outside)] at above
    · exact ih m mem

theorem length_le : path.length ≤ doc.nodes.size := by
  have once := ascends.nodup.sublist (dropLast_sublist _)
  simpa using (subperm_of_subset once fun m mem => mem_range.mpr (ascends.lt_size m mem)).length_le

theorem ancestorsUpTo_eq {fuel : Nat} (enough : path.length ≤ fuel) : doc.ancestorsUpTo fuel n = path := by
  induction ascends generalizing fuel with
  | top alone => cases fuel <;> simp [ancestorsUpTo, alone]
  | up above _ ih =>
    cases fuel with
    | zero => simp at enough
    | succ => simp [ancestorsUpTo, above, ih (Nat.le_of_succ_le_succ enough)]

theorem ancestors_eq : doc.ancestors n = path := ascends.ancestorsUpTo_eq ascends.length_le

end

end Ascends

end Ascending

end LiveMarkup.Document

namespace LiveMarkup.Live
open Document Reactive

variable {γ τ : Type}

section Visiting

/-- A node that an event comes by, with the handlers that it calls there. -/
structure Station (γ : Type) where
  node : NodeId
  handlers : List γ

def stations (doc : Document γ Property) (n : NodeId) (path : List NodeId) (event : Event) : List (Station γ) :=
  path.reverse.map (fun m => ⟨m, doc.handlers m event.kind true⟩) ++
    ⟨n, doc.handlers n event.kind true ++ doc.handlers n event.kind false⟩ ::
    if event.bubbles then path.map fun m => ⟨m, doc.handlers m event.kind false⟩ else []

abbrev LiveState (γ τ : Type) := State (Procedure γ) (World γ τ) Datum

def withEvent (id : EventId) (change : Event → Event) (state : LiveState γ τ) : LiveState γ τ :=
  { state with outside := { state.outside with events := state.outside.events.modify id change } }

variable (self : Runner (Procedure γ) (World γ τ) Datum) (id : EventId) (target : NodeId)

def IsStopped (state : LiveState γ τ) : Prop := ∃ event, state.outside.events[id]? = some event ∧ event.stopped = true

/-- What a handler sees of its event: the target, and the node that it is called at. -/
def Sees (n : NodeId) (state : LiveState γ τ) : Prop :=
  ∃ event, state.outside.events[id]? = some event ∧ event.target = some target ∧ event.current = some n

/-- Handlers are called at a node one after the other and all come to their end. -/
inductive Calls (n : NodeId) : List γ → LiveState γ τ → LiveState γ τ → Prop
  | nil {state : LiveState γ τ} : Calls n [] state state
  | cons {code : γ} {codes : List γ} {state next final : LiveState γ τ} (sees : Sees id target n state)
      (ran : self (.perform (.handle code id)) state = .ok () next) (rest : Calls n codes next final) :
      Calls n (code :: codes) state final

/-- Of handlers that are called at a node one after the other, one fails. -/
def FailsAt (n : NodeId) (codes : List γ) (state : LiveState γ τ) (why : Fault) (final : LiveState γ τ) : Prop :=
  ∃ before code after last, codes = before ++ code :: after ∧ Calls self id target n before state last ∧
    Sees id target n last ∧ self (.perform (.handle code id)) last = .error why final

/-- An event comes by at nodes one after the other. Nobody stops it before the last. -/
inductive PassesThrough : List (Station γ) → LiveState γ τ → LiveState γ τ → Prop
  | nil {state : LiveState γ τ} : PassesThrough [] state state
  | cons {station : Station γ} {others : List (Station γ)} {state next final : LiveState γ τ}
      (called : Calls self id target station.node station.handlers
        (withEvent id ({ · with current := some station.node }) state) next)
      (going : others ≠ [] → ¬ IsStopped id next) (rest : PassesThrough others next final) :
      PassesThrough (station :: others) state final

/-- What calling handlers leaves as it is: who listens, and of the event all but whether it is stopped or prevented. -/
structure LeavesEvent (before after : LiveState γ τ) : Prop where
  listeners : ∀ m, after.outside.document.listeners m = before.outside.document.listeners m
  event : ∀ event, before.outside.events[id]? = some event →
    ∃ stopped prevented, after.outside.events[id]? = some { event with stopped, prevented }

/-- Whatever comes of running a handler, if it comes to its end it leaves the listeners and its event as they are. -/
def Harmless (code : γ) : Prop :=
  ∀ state final, self (.perform (.handle code id)) state = .ok () final → LeavesEvent id state final

/-- What comes of an event that is to come by at nodes, when `already` handlers were called before. Either it comes to its
end, and all handlers are called at the nodes up to the first where it is stopped, or one of these handlers fails. -/
inductive ComesBy (already : Nat) (nodes : List (Station γ)) (state : LiveState γ τ) :
    EStateM.Result Fault (LiveState γ τ) Nat → Prop
  | ends {visited left : List (Station γ)} {final : LiveState γ τ} (split : nodes = visited ++ left)
      (passes : PassesThrough self id target visited state final) (stopped : left ≠ [] → IsStopped id final) :
      ComesBy already nodes state (.ok (already + (visited.flatMap Station.handlers).length) final)
  | fails {visited left : List (Station γ)} {station : Station γ} {middle final : LiveState γ τ} {why : Fault}
      (split : nodes = visited ++ station :: left) (passes : PassesThrough self id target visited state middle)
      (going : ¬ IsStopped id middle) (failed : FailsAt self id target station.node station.handlers
        (withEvent id ({ · with current := some station.node }) middle) why final) :
      ComesBy already nodes state (.error why final)

end Visiting

section Running

variable {self : Runner (Procedure γ) (World γ τ) Datum} {id : EventId} {target n : NodeId} {codes : List γ} {already : Nat}
  {nodes : List (Station γ)} {state next final : LiveState γ τ} {why : Fault}

section Opening

variable {ι α : Type}

theorem run_alterEvent (id : EventId) (change : Event → Event) (next : Unit → LiveProgram γ τ α) (state : LiveState γ τ) :
    (alterEvent id change >>= next).run self state = (next ()).run self (withEvent id change state) := rfl

theorem run_seeEvent (id : EventId) (default : ι) (view : Event → ι) (next : ι → LiveProgram γ τ α) (state : LiveState γ τ) :
    (seeEvent id default view >>= next).run self state =
      (next (((state.outside.events[id]?).map view).getD default)).run self state := rfl

theorem run_seeDocument (view : Document γ Property → ι) (next : ι → LiveProgram γ τ α) (state : LiveState γ τ) :
    (seeDocument view >>= next).run self state = (next (view state.outside.document)).run self state := rfl

end Opening

theorem LeavesEvent.refl (state : LiveState γ τ) : LeavesEvent id state state := ⟨fun _ => rfl, fun _ found => ⟨_, _, found⟩⟩

theorem LeavesEvent.trans (one : LeavesEvent id state next) (two : LeavesEvent id next final) : LeavesEvent id state final where
  listeners m := (two.listeners m).trans (one.listeners m)
  event event found := by
    obtain ⟨_, _, found⟩ := one.event event found
    obtain ⟨stopped, prevented, found⟩ := two.event _ found
    exact ⟨stopped, prevented, found⟩

theorem Sees.keeps (sees : Sees id target n state) (keeps : LeavesEvent id state next) : Sees id target n next := by
  obtain ⟨event, found, aimed, here⟩ := sees
  obtain ⟨_, _, found⟩ := keeps.event event found
  exact ⟨_, found, aimed, here⟩

theorem calls_forM (sees : Sees id target n state) (harmless : ∀ code ∈ codes, Harmless self id code) :
    match (codes.forM fun code => Program.call (.handle code id) : LiveProgram γ τ Unit).run self state with
    | .ok _ final => Calls self id target n codes state final ∧ LeavesEvent id state final
    | .error why final => FailsAt self id target n codes state why final := by
  induction codes generalizing state with
  | nil => exact ⟨.nil, .refl state⟩
  | cons code codes ih =>
    have opened : (List.forM (code :: codes) fun code => Program.call (.handle code id) : LiveProgram γ τ Unit).run self state =
        EStateM.bind (self (.perform (.handle code id)))
          (fun _ => (codes.forM fun code => Program.call (.handle code id) : LiveProgram γ τ Unit).run self) state := rfl
    rw [opened, EStateM.bind]
    cases ran : self (.perform (.handle code id)) state with
    | error => exact ⟨[], code, codes, state, rfl, .nil, sees, ran⟩
    | ok _ next =>
      have keeps := harmless code (by simp) state next ran
      have later := ih (sees.keeps keeps) fun code mem => harmless code (List.mem_cons_of_mem _ mem)
      dsimp only
      split at later
      · exact ⟨.cons sees ran later.1, keeps.trans later.2⟩
      · obtain ⟨before, failing, after, last, rfl, called, seen, failed⟩ := later
        exact ⟨code :: before, failing, after, last, rfl, .cons sees ran called, seen, failed⟩

/-- While an event is under way, listeners are those that there were, and of the event only some parts have changed. -/
structure Travelling (id : EventId) (target : NodeId) (doc : Document γ Property) (event : Event) (state : LiveState γ τ) : Prop where
  listeners : ∀ m, state.outside.document.listeners m = doc.listeners m
  event : ∃ current stopped prevented,
    state.outside.events[id]? = some { event with target := some target, current, stopped, prevented }

variable {doc : Document γ Property} {event : Event}

namespace Travelling

theorem handlers (travelling : Travelling id target doc event state) (m : NodeId) (kind : String) (capture : Bool) :
    state.outside.document.handlers m kind capture = doc.handlers m kind capture := by
  rw [Document.handlers, Document.handlers, travelling.listeners]

theorem keeps (travelling : Travelling id target doc event state) (keeps : LeavesEvent id state next) :
    Travelling id target doc event next where
  listeners m := (keeps.listeners m).trans (travelling.listeners m)
  event := by
    obtain ⟨current, stopped, prevented, found⟩ := travelling.event
    obtain ⟨stopped, prevented, found⟩ := keeps.event _ found
    exact ⟨current, stopped, prevented, found⟩

theorem enter (travelling : Travelling id target doc event state) (n : NodeId) :
    Travelling id target doc event (withEvent id ({ · with current := some n }) state) ∧
      Sees id target n (withEvent id ({ · with current := some n }) state) := by
  obtain ⟨current, stopped, prevented, found⟩ := travelling.event
  have entered : (withEvent id ({ · with current := some n }) state).outside.events[id]? =
      some { event with target := some target, current := some n, stopped, prevented } := by
    simp [withEvent, Array.getElem?_modify, found]
  exact ⟨⟨travelling.listeners, _, _, _, entered⟩, _, entered, rfl, rfl⟩

theorem see {ι : Type} (travelling : Travelling id target doc event state) (default : ι) (view : Event → ι)
    (same : ∀ current stopped prevented,
      view { event with target := some target, current, stopped, prevented } = view event) :
    ((state.outside.events[id]?).map view).getD default = view event := by
  obtain ⟨_, _, _, found⟩ := travelling.event
  simp [found, same]

theorem stopped_iff (travelling : Travelling id target doc event state) :
    ((state.outside.events[id]?).map Event.stopped).getD false = true ↔ IsStopped id state := by
  obtain ⟨_, _, _, found⟩ := travelling.event
  simp [found, IsStopped]

end Travelling

section ComesBy

variable (called : Calls self id target n codes (withEvent id ({ · with current := some n }) state) next)

include called

theorem ComesBy.goOn {result : EStateM.Result Fault (LiveState γ τ) Nat} (going : ¬ IsStopped id next)
    (rest : ComesBy self id target (already + codes.length) nodes next result) :
    ComesBy self id target already (⟨n, codes⟩ :: nodes) state result := by
  cases rest with
  | @ends visited _ final split passes stopped =>
    have all : ComesBy self id target already (⟨n, codes⟩ :: nodes) state
        (.ok (already + ((⟨n, codes⟩ :: visited).flatMap Station.handlers).length) final) :=
      .ends (congrArg (⟨n, codes⟩ :: ·) split) (.cons called (fun _ => going) passes) stopped
    simpa [Nat.add_assoc] using all
  | fails split passes still failed =>
    exact .fails (congrArg (⟨n, codes⟩ :: ·) split) (.cons called (fun _ => going) passes) still failed

theorem ComesBy.stop (ended : nodes ≠ [] → IsStopped id next) :
    ComesBy self id target already (⟨n, codes⟩ :: nodes) state (.ok (already + codes.length) next) := by
  have alone : ComesBy self id target already (⟨n, codes⟩ :: nodes) state
      (.ok (already + ([⟨n, codes⟩].flatMap Station.handlers).length) next) :=
    .ends rfl (.cons called (absurd rfl) .nil) ended
  simpa using alone

end ComesBy

section Serving

variable {next : Nat × Bool → Run (Procedure γ) (World γ τ) Datum Nat}

theorem comesBy_serve (travelling : Travelling id target doc event state) (going : ¬ IsStopped id state)
    (harmless : ∀ code ∈ codes, Harmless self id code)
    (rest : ∀ stopped served, Calls self id target n codes (withEvent id ({ · with current := some n }) state) served →
      Travelling id target doc event served → (stopped = true ↔ IsStopped id served) →
      ComesBy self id target already (⟨n, codes⟩ :: nodes) state (next (codes.length, stopped) served)) :
    ComesBy self id target already (⟨n, codes⟩ :: nodes) state (((serve id n codes).run self >>= next) state) := by
  obtain ⟨entered, sees⟩ := travelling.enter n
  have opened : (serve id n codes).run self state =
      EStateM.bind ((codes.forM fun code => Program.call (.handle code id) : LiveProgram γ τ Unit).run self)
        (fun _ served => .ok (codes.length, ((served.outside.events[id]?).map Event.stopped).getD false) served)
        (withEvent id ({ · with current := some n }) state) := by
    rw [serve, run_alterEvent, Program.run_bind]
    rfl
  have ran := calls_forM sees harmless
  show ComesBy self id target already _ _ (EStateM.bind _ _ _)
  unfold EStateM.bind
  rw [opened]
  unfold EStateM.bind
  split at ran
  · rename_i served found
    rw [found]
    exact rest _ served ran.1 (entered.keeps ran.2) (entered.keeps ran.2).stopped_iff
  · rename_i why final found
    rw [found]
    exact .fails (List.nil_append _).symm .nil going ran

theorem comesBy_serveAll {kind : String} {capture : Bool} {path : List NodeId} (travelling : Travelling id target doc event state)
    (going : ¬ IsStopped id state) (harmless : ∀ m ∈ path, ∀ code ∈ doc.handlers m kind capture, Harmless self id code)
    (ended : ∀ count left, IsStopped id left → next (count, true) left = .ok (already + count) left)
    (rest : ∀ count left, Travelling id target doc event left → ¬ IsStopped id left →
      ComesBy self id target (already + count) nodes left (next (count, false) left)) :
    ComesBy self id target already (path.map (fun m => ⟨m, doc.handlers m kind capture⟩) ++ nodes) state
      (((serveAll id kind capture path).run self >>= next) state) := by
  induction path generalizing already state next with
  | nil => exact rest 0 state travelling going
  | cons n path ih =>
    have opened : ((serveAll id kind capture (n :: path)).run self >>= next) state =
        ((serve id n (doc.handlers n kind capture)).run self >>= fun served =>
          if served.2 then next (served.1, true)
          else (serveAll id kind capture path).run self >>= fun more => next (served.1 + more.1, more.2)) state := by
      rw [← travelling.handlers n kind capture]
      show ((serve id n _ >>= _ : LiveProgram γ τ _).run self >>= next) state = _
      rw [Program.run_bind, bind_assoc]
      refine congrFun (bind_congr fun served => ?_) state
      obtain ⟨_, stopped⟩ := served
      cases stopped with
      | true => rfl
      | false =>
        show (serveAll id kind capture path >>= _ : LiveProgram γ τ _).run self >>= next = _
        rw [Program.run_bind, bind_assoc]
        rfl
    rw [opened, List.map_cons, List.cons_append]
    refine comesBy_serve travelling going (harmless n (by simp)) fun stopped served called after stops => ?_
    cases stopped with
    | true =>
      rw [if_pos rfl, ended _ served (stops.mp rfl)]
      exact .stop called fun _ => stops.mp rfl
    | false =>
      have still : ¬ IsStopped id served := fun stopped => Bool.false_ne_true (stops.mpr stopped)
      rw [if_neg Bool.false_ne_true]
      refine .goOn called still (ih after still (fun m mem => harmless m (List.mem_cons_of_mem n mem)) ?_ ?_)
      · intro count left stopped
        rw [ended _ left stopped, Nat.add_assoc]
      · intro count left travelling going
        rw [Nat.add_assoc]
        exact rest _ left travelling going

/-- Dispatching an event calls the handlers of the nodes above its target that capture it from the outermost node
inwards, then those of the target, capturing ones first, and then, if it bubbles, the others of the nodes above from the
nearest outwards, up to the last handler of the first node where it is stopped. It gives the number of these handlers.
-/
theorem dispatch_order {path : List NodeId} (ascends : state.outside.document.Ascends target path)
    (known : state.outside.events[id]? = some event) (fresh : event.stopped = false)
    (harmless : ∀ station ∈ stations state.outside.document target path event, ∀ code ∈ station.handlers, Harmless self id code) :
    ComesBy self id target 0 (stations state.outside.document target path event)
      (withEvent id ({ · with target := some target }) state) ((dispatch target id).run self state) := by
  let aimed := withEvent id ({ · with target := some target }) state
  have found : aimed.outside.events[id]? = some { event with target := some target } := by
    simp [aimed, withEvent, Array.getElem?_modify, known]
  have travelling : Travelling id target state.outside.document event aimed := ⟨fun _ => rfl, _, _, _, found⟩
  have going : ¬ IsStopped id aimed := by
    rintro ⟨_, same, stopped⟩
    obtain rfl := Option.some.inj (found.symm.trans same)
    simp [fresh] at stopped
  have path_eq : aimed.outside.document.ancestors target = path := ascends.ancestors_eq
  have kind_eq : ((aimed.outside.events[id]?).map Event.kind).getD "" = event.kind := travelling.see _ _ fun _ _ _ => rfl
  rw [dispatch, run_alterEvent, run_seeDocument, path_eq, run_seeEvent, kind_eq, Program.run_bind]
  refine comesBy_serveAll travelling going (fun m inside => harmless ⟨m, _⟩ ?_) ?_ ?_
  · exact List.mem_append_left _ (List.mem_map.mpr ⟨m, inside, rfl⟩)
  · intro count left _
    rw [Nat.zero_add]
    rfl
  · intro count left travelling going
    rw [Nat.zero_add]
    dsimp only
    rw [if_neg Bool.false_ne_true, run_seeDocument, Program.run_bind, travelling.handlers, travelling.handlers]
    refine comesBy_serve travelling going (harmless ⟨target, _⟩ ?_) fun stopped served called after stops => ?_
    · exact List.mem_append_right _ List.mem_cons_self
    · dsimp only
      rw [run_seeEvent, after.see _ _ fun _ _ _ => rfl]
      cases bubbles : event.bubbles with
      | false =>
        rw [if_neg Bool.false_ne_true, if_pos (by simp)]
        exact .stop called (absurd rfl)
      | true =>
        rw [if_pos rfl]
        cases stopped with
        | true => exact .stop called fun _ => stops.mp rfl
        | false =>
          have still : ¬ IsStopped id served := fun stopped => Bool.false_ne_true (stops.mpr stopped)
          rw [if_neg (by decide), Program.run_bind, ← List.append_nil (path.map _)]
          refine .goOn called still ?_
          refine comesBy_serveAll after still (fun m inside => harmless ⟨m, _⟩ ?_) (fun _ _ _ => rfl) fun count left _ _ => ?_
          · refine List.mem_append_right _ (List.mem_cons_of_mem _ ?_)
            rw [if_pos bubbles]
            exact List.mem_map.mpr ⟨m, inside, rfl⟩
          · exact .ends (List.nil_append _).symm .nil (absurd rfl)

end Serving

/-- Handlers that note their names; some of them stop the event. -/
def noting : Host (String × Bool) (List String) where
  view _ := return .empty
  attributeText _ := return none
  datum _ := return .unit
  act _ := return ()
  handle code id := Program.altering fun world =>
    { world with
      host := world.host ++ [code.1]
      events := world.events.modify id fun event => { event with stopped := event.stopped || code.2 } }

theorem harmless_noting (fuel : Nat) (id : EventId) (code : String × Bool) :
    Harmless (Job.run (Procedure.meaning noting) (fuel + 1)) id code := by
  intro state final ran
  obtain rfl := (EStateM.Result.ok.inj ran).2
  refine ⟨fun _ => rfl, fun event found => ⟨event.stopped || code.2, event.prevented, ?_⟩⟩
  show (state.outside.events.modify id _)[id]? = _
  simp [Array.getElem?_modify, found]

def bellPage : Document (String × Bool) Property where
  nodes := #[
    { kind := .element "main" false, children := [1],
      listeners := [⟨1, "click", true, "outer", false⟩, ⟨2, "click", false, "outermost", false⟩] },
    { kind := .element "p" false, parent := some 0, children := [2],
      listeners := [⟨3, "click", false, "stopping", true⟩, ⟨4, "keydown", true, "typing", false⟩] },
    { kind := .element "b" false, parent := some 1,
      listeners := [⟨5, "click", false, "own", false⟩, ⟨6, "click", true, "capturing", false⟩] }]

def bellState : LiveState (String × Bool) (List String) where
  outside := { document := bellPage, events := #[{ kind := "click", bubbles := true }], host := [] }

theorem dispatch_order_bell : ComesBy (Job.run (Procedure.meaning noting) 1) 0 2 0
      [⟨0, [("outer", false)]⟩, ⟨1, []⟩, ⟨2, [("capturing", false), ("own", false)]⟩, ⟨1, [("stopping", true)]⟩,
        ⟨0, [("outermost", false)]⟩]
      (withEvent 0 ({ · with target := some 2 }) bellState)
      ((dispatch 2 0).run (Job.run (Procedure.meaning noting) 1) bellState) ∧
    (match (dispatch 2 0).run (Job.run (Procedure.meaning noting) 1) bellState with
      | .ok count final => some (count, final.outside.host)
      | .error _ _ => none) = some (4, ["outer", "capturing", "own", "stopping"]) := by
  have ascends : bellState.outside.document.Ascends 2 [1, 0] := .up rfl (.up rfl (.top rfl))
  have harmless (code : String × Bool) : Harmless (Job.run (Procedure.meaning noting) 1) 0 code := harmless_noting 0 0 code
  have known : bellState.outside.events[0]? = some { kind := "click", bubbles := true } := rfl
  exact ⟨dispatch_order ascends known rfl fun _ _ code _ => harmless code, by decide +kernel⟩

end Running

end LiveMarkup.Live
