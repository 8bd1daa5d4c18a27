import LiveMarkup.Live.Dispatch
import LiveMarkup.Script.State

/-!
What a script can ask for beyond what the library offers by name: the kinds of nodes a walk stops at, the kinds an
entry is read as, cells that may be gone, and the event that is being dispatched.
-/

namespace LiveMarkup.Script
open Document Live Reactive

variable {κ : Type}

inductive Filter where
  | all | element | text | comment
  | tag (name : String)
  deriving Repr, BEq, DecidableEq

def Filter.ofName : String → Filter
  | "all" => .all
  | "element" => .element
  | "text" => .text
  | "comment" => .comment
  | name => .tag name

def Filter.accepts {η π : Type} (filter : Filter) (doc : Document η π) (n : NodeId) : Bool :=
  match filter with
  | .all => true
  | .element => (doc.kind n).isElement
  | .text => doc.isText n
  | .comment => doc.isComment n
  | .tag name => doc.tag? n == some name

inductive Wanted where
  | string | integer | bool | fixed
  deriving Repr, BEq, DecidableEq

/-- The value that an entry was asked for, if it is of that kind; a text is answered as such. -/
def Wanted.accept? : Wanted → Datum → Option Datum
  | .string, .text .owned data => some (.text .owned data)
  | .fixed, .text .fixed data => some (.string data)
  | .integer, .integer kind value => if kind = .standard then some (.integer kind value) else none
  | .bool, .bool value => some (.bool value)
  | _, _ => none

/-- A signal's value if it is still there; a computed value has to be there. -/
def tryCell (tracked : Bool) (named : Named κ) : ScriptProgram κ Datum :=
  match named with
  | .signal cell => do return .ofOption (← Program.perform (.read tracked cell))
  | .computed cell => Program.get tracked cell
  | _ => .fault .unknownName

def alterDispatched (change : Event → Event) : ScriptProgram κ Unit := do
  match ← seeMemory Memory.dispatching with
  | [] => return
  | id :: _ => alterEvent id change

/-- Runs a handler's body in an environment that knows the event, which is the innermost one meanwhile. -/
def handling (environment : EnvironmentId) (id : EventId) (body : EnvironmentId → ScriptProgram κ Unit) :
    ScriptProgram κ Unit := do
  let event ← Program.seeing fun world => world.events[id]?
  let named (name : Name) (n : Option NodeId) : List (Name × Named κ) := (n.map fun n => (name, .node n)).toList
  let names := match event with
    | none => []
    | some event =>
      named "target" event.target ++ named "current" event.current ++ [("kind", .value (.string event.kind))]
  let inner ← nest environment names
  alterMemory fun memory => { memory with dispatching := id :: memory.dispatching }
  body inner
  alterMemory fun memory => { memory with dispatching := memory.dispatching.drop 1 }

end LiveMarkup.Script
