import LiveMarkup.Live.World

/-!
Dispatching events: capturing listeners from the outermost node inwards, then the target's own, then bubbling
listeners outwards. Stopping an event ends it behind the node that is being served.
-/

namespace LiveMarkup.Live
open Document
open Reactive

variable {γ τ : Type}

def newEvent (kind : String) (bubbles : Bool) : LiveProgram γ τ EventId :=
  Program.changing fun world => (world.events.size, { world with events := world.events.push { kind, bubbles } })

def seeEvent {ι : Type} (id : EventId) (default : ι) (view : Event → ι) : LiveProgram γ τ ι :=
  Program.seeing fun world => ((world.events[id]?).map view).getD default

def alterEvent (id : EventId) (change : Event → Event) : LiveProgram γ τ Unit :=
  Program.altering fun world => { world with events := world.events.modify id change }

/-- Runs handlers at a node; says how many there were and whether the event is stopped. -/
def serve (id : EventId) (n : NodeId) (handlers : List γ) : LiveProgram γ τ (Nat × Bool) := do
  alterEvent id ({ · with current := some n })
  handlers.forM fun code => Program.call (.handle code id)
  return (handlers.length, ← seeEvent id false Event.stopped)

def serveAll (id : EventId) (kind : String) (capture : Bool) : List NodeId → LiveProgram γ τ (Nat × Bool)
  | [] => return (0, false)
  | n :: rest => do
    let (count, stopped) ← serve id n (← seeDocument (·.handlers n kind capture))
    if stopped then return (count, true)
    let (more, stopped) ← serveAll id kind capture rest
    return (count + more, stopped)

/-- Dispatches an event at a node; says how many handlers were run. -/
def dispatch (n : NodeId) (id : EventId) : LiveProgram γ τ Nat := do
  alterEvent id ({ · with target := some n })
  let path ← seeDocument (·.ancestors n)
  let kind ← seeEvent id "" Event.kind
  let (captured, stopped) ← serveAll id kind true path.reverse
  if stopped then return captured
  let own ← seeDocument fun doc => doc.handlers n kind true ++ doc.handlers n kind false
  let (served, stopped) ← serve id n own
  if stopped || !(← seeEvent id false Event.bubbles) then return captured + served
  let (bubbled, _) ← serveAll id kind false path
  return captured + served + bubbled

end LiveMarkup.Live
