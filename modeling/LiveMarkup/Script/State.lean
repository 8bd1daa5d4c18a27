import LiveMarkup.Live.Meaning

/-!
The state of a running script: environments of names, and what was logged. Environments are nested; a name is
looked for from the innermost outwards and defined in the innermost.
-/

namespace LiveMarkup.Script
open Document Live Reactive

abbrev Name := String

abbrev EnvironmentId := Nat

variable {κ : Type}

/-- Code with the environment it was written in. -/
structure Closure (κ : Type) where
  environment : EnvironmentId
  code : κ

inductive Named (κ : Type) where
  | value (datum : Datum)
  | node (node : NodeId)
  | signal (cell : CellId)
  | computed (cell : CellId)
  | effect (owner : OwnerId)
  | scope (owner : OwnerId)
  | view (view : View (Closure κ))
  | props (props : Props (Closure κ))
  | reference (id : ReferenceId)
  | listener (node : NodeId) (id : ListenerId)
  | event (id : EventId)
  | template (root : NodeId)

namespace Named

def datum? : Named κ → Option Datum
  | .value datum => some datum
  | _ => none

def node? : Named κ → Option NodeId
  | .node n => some n
  | _ => none

def cell? : Named κ → Option CellId
  | .signal cell => some cell
  | .computed cell => some cell
  | _ => none

def owner? : Named κ → Option OwnerId
  | .effect owner => some owner
  | .scope owner => some owner
  | _ => none

def view? : Named κ → Option (View (Closure κ))
  | .view v => some v
  | _ => none

def props? : Named κ → Option (Props (Closure κ))
  | .props p => some p
  | _ => none

def reference? : Named κ → Option ReferenceId
  | .reference id => some id
  | _ => none

def listener? : Named κ → Option (NodeId × ListenerId)
  | .listener n id => some (n, id)
  | _ => none

def event? : Named κ → Option EventId
  | .event id => some id
  | _ => none

def template? : Named κ → Option NodeId
  | .template root => some root
  | _ => none

end Named

structure Environment (κ : Type) where
  outer : Option EnvironmentId := none
  names : List (Name × Named κ) := []

structure Memory (κ : Type) where
  environments : Array (Environment κ) := #[{}]
  log : Array Datum := #[]
  /-- The events that are being dispatched, the innermost first. -/
  dispatching : List EventId := []

abbrev ScriptProgram (κ : Type) := LiveProgram (Closure κ) (Memory κ)

def topLevel : EnvironmentId := 0

namespace Memory

/-- Looks for a name from an environment outwards, through at most `fuel` of them. -/
def lookupUpTo (memory : Memory κ) (name : Name) : (fuel : Nat) → EnvironmentId → Option (Named κ)
  | 0, _ => none
  | fuel + 1, id =>
    match memory.environments[id]? with
    | none => none
    | some environment =>
      match valueUnder? environment.names name with
      | some named => some named
      | none => environment.outer.bind (memory.lookupUpTo name fuel)

def lookup? (memory : Memory κ) (id : EnvironmentId) (name : Name) : Option (Named κ) :=
  memory.lookupUpTo name memory.environments.size id

def define (memory : Memory κ) (id : EnvironmentId) (name : Name) (named : Named κ) : Memory κ :=
  { memory with
    environments := memory.environments.modify id fun environment =>
      { environment with names := putEntry name named environment.names } }

def nest (memory : Memory κ) (outer : EnvironmentId) (names : List (Name × Named κ)) : EnvironmentId × Memory κ :=
  (memory.environments.size,
    { memory with environments := memory.environments.push { outer := some outer, names } })

end Memory

def seeMemory {ι : Type} (view : Memory κ → ι) : ScriptProgram κ ι := Program.seeing fun world => view world.host

def alterMemory (change : Memory κ → Memory κ) : ScriptProgram κ Unit :=
  Program.altering fun world => { world with host := change world.host }

def define (environment : EnvironmentId) (name : Name) (named : Named κ) : ScriptProgram κ Unit :=
  alterMemory (·.define environment name named)

def defineIfNamed (environment : EnvironmentId) (name : Option Name) (named : Named κ) : ScriptProgram κ Unit :=
  match name with
  | some name => define environment name named
  | none => return

def nest (environment : EnvironmentId) (names : List (Name × Named κ)) : ScriptProgram κ EnvironmentId :=
  Program.changing fun world =>
    let (nested, host) := world.host.nest environment names
    (nested, { world with host })

def find {ι : Type} (kind : Named κ → Option ι) (environment : EnvironmentId) (name : Name) : ScriptProgram κ ι := do
  match (← seeMemory (·.lookup? environment name)).bind kind with
  | some found => return found
  | none => .fault .unknownName

def findNode : EnvironmentId → Name → ScriptProgram κ NodeId := find Named.node?

def findNode? (environment : EnvironmentId) : Option Name → ScriptProgram κ (Option NodeId)
  | some name => do return some (← findNode environment name)
  | none => return none

def findNodes (environment : EnvironmentId) (names : List Name) : ScriptProgram κ (List NodeId) :=
  names.mapM (findNode environment)

end LiveMarkup.Script
