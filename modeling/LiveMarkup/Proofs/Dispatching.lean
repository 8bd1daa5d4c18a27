import LiveMarkup.Proofs.Showing

/-!
What dispatching an event comes to where nobody listens above its target: the handlers at the target run, and besides only
the event itself has changed.
-/

namespace LiveMarkup.Live
open Document Reactive Program Procedure

variable {γ τ : Type} {host : Host γ τ} {level : Nat} {graph : Graph (Procedure γ) Datum} {world : World γ τ}
  {id : EventId} {kind : String} {n : NodeId}

def Silent (doc : Document γ Property) (kind : String) (n : NodeId) : Prop := ∀ capture, doc.handlers n kind capture = []

theorem silent_of_node? {doc : Document γ Property} {node : Node γ Property} (found : doc.node? n = some node)
    (none : node.listeners = []) (kind : String) : Silent doc kind n := by
  intro capture
  simp [handlers, listeners, found, none]

def Ringing (events : Array Event) (id : EventId) (kind : String) : Prop :=
  ∃ event, events[id]? = some event ∧ event.kind = kind ∧ event.stopped = false

theorem Ringing.modify {events : Array Event} (ringing : Ringing events id kind) {change : Event → Event}
    (same : ∀ event, (change event).kind = event.kind ∧ (change event).stopped = event.stopped) :
    Ringing (events.modify id change) id kind := by
  obtain ⟨event, found, rfl, going⟩ := ringing
  refine ⟨change event, by simp [Array.getElem?_modify, found], (same event).1, (same event).2.trans going⟩

theorem ensures_serve_quiet (id : EventId) (n : NodeId) :
    (serve id n [] : LiveProgram γ τ _).Ensures (meaning host) level graph world fun result graph' world' =>
      graph' = graph ∧ ∃ events, world' = { world with events } ∧
        ∀ kind, Ringing world.events id kind → Ringing events id kind ∧ result = (0, false) := by
  refine altering_then (seeing_then (ensures_pure ⟨rfl, _, rfl, fun kind ringing => ?_⟩))
  obtain ⟨event, found, same, going⟩ : Ringing (world.events.modify id ({ · with current := some n })) id kind :=
    ringing.modify fun _ => ⟨rfl, rfl⟩
  exact ⟨⟨event, found, same, going⟩, by simp [found, going]⟩

theorem ensures_serveAll_quiet {capture : Bool} {nodes : List NodeId} (quiet : ∀ n ∈ nodes, Silent world.document kind n) :
    (serveAll id kind capture nodes : LiveProgram γ τ _).Ensures (meaning host) level graph world
      fun result graph' world' => graph' = graph ∧ ∃ events, world' = { world with events } ∧
        (Ringing world.events id kind → Ringing events id kind ∧ result = (0, false)) := by
  induction nodes generalizing world with
  | nil => exact ensures_pure ⟨rfl, world.events, rfl, fun ringing => ⟨ringing, rfl⟩⟩
  | cons n nodes ih =>
    refine seeing_then ?_
    beta_reduce
    rw [quiet n (by simp) capture]
    refine (ensures_serve_quiet id n).bind ?_
    rintro ⟨_, stopped⟩ _ _ ⟨rfl, events, rfl, rings⟩
    cases stopped with
    | true =>
      refine ensures_pure ⟨rfl, events, rfl, fun ringing => ?_⟩
      have := (rings kind ringing).2
      simp at this
    | false =>
      have later : ∀ m ∈ nodes, Silent ({ world with events } : World γ τ).document kind m := fun m mem =>
        quiet m (List.mem_cons_of_mem n mem)
      refine (ih later).bind ?_
      rintro ⟨_, _⟩ _ _ ⟨rfl, events', rfl, rings'⟩
      refine ensures_pure ⟨rfl, events', rfl, fun ringing => ?_⟩
      obtain ⟨still, _⟩ := rings kind ringing
      obtain ⟨again, _⟩ := rings' still
      refine ⟨again, ?_⟩
      simp_all

theorem ensures_serve (post : Graph (Procedure γ) Datum → World γ τ → Prop) {handlers : List γ}
    (ran : ∀ events, (handlers.forM fun code => call (.handle code id) : LiveProgram γ τ Unit).Ensures
      (meaning host) level graph { world with events } fun _ graph' world' => post graph' world') :
    (serve id n handlers : LiveProgram γ τ _).Ensures (meaning host) level graph world
      fun _ graph' world' => post graph' world' := by
  refine altering_then ((ran _).bind fun _ graph' world' holds => ?_)
  exact seeing_then (ensures_pure holds)

theorem ensures_dispatch (post : Graph (Procedure γ) Datum → World γ τ → Prop) (ringing : Ringing world.events id kind)
    (quiet : ∀ m ∈ world.document.ancestors n, Silent world.document kind m)
    (served : ∀ events, ((world.document.handlers n kind true ++ world.document.handlers n kind false).forM fun code =>
        call (.handle code id) : LiveProgram γ τ Unit).Ensures (meaning host) level graph
      { world with events } fun _ graph' world' => (∀ m ∈ world.document.ancestors n, Silent world'.document kind m) ∧
        ∀ events, post graph' { world' with events }) :
    (dispatch n id : LiveProgram γ τ Nat).Ensures (meaning host) level graph world
      fun _ graph' world' => post graph' world' := by
  let aimed : World γ τ := { world with events := world.events.modify id ({ · with target := some n }) }
  have targeted : Ringing aimed.events id kind := ringing.modify fun _ => ⟨rfl, rfl⟩
  have named : ((aimed.events[id]?).map Event.kind).getD "" = kind := by
    obtain ⟨_, found, same, _⟩ := targeted
    simp [found, same]
  have inward : ∀ m ∈ (world.document.ancestors n).reverse, Silent aimed.document kind m := by simpa using quiet
  refine altering_then (seeing_then (seeing_then ?_))
  change Program.Ensures _ level _ graph aimed _
  rw [named]
  refine (ensures_serveAll_quiet inward).bind ?_
  rintro ⟨captured, stopped⟩ graph _ ⟨rfl, events, rfl, rings⟩
  obtain ⟨_, rfl⟩ : captured = 0 ∧ stopped = false := by simpa using (rings targeted).2
  have own : (serve id n (world.document.handlers n kind true ++ world.document.handlers n kind false)).Ensures
      (meaning host) level graph { aimed with events } fun _ graph' world' =>
        (∀ m ∈ world.document.ancestors n, Silent world'.document kind m) ∧ ∀ events, post graph' { world' with events } :=
    ensures_serve _ served
  refine seeing_then (own.bind ?_)
  -- The handlers may have stopped the event. Whether it goes on or not, nobody listens further out.
  rintro ⟨_, ended⟩ graph' world' ⟨outward, done⟩
  have here : post graph' world' := done world'.events
  cases ended with
  | true => exact seeing_then (ensures_pure here)
  | false =>
    refine seeing_then ?_
    split
    · exact ensures_pure here
    · refine (ensures_serveAll_quiet outward).bind ?_
      rintro _ _ _ ⟨rfl, events', rfl, _⟩
      exact ensures_pure (done events')

end LiveMarkup.Live
