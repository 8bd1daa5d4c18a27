import LiveMarkup.Reactive.Program

/-!
Running programs. A write queues the reactions that have read the cell, and outside of batches they run
at once, in the order of their numbers and one after the other, until none is left. Before a reaction runs,
everything that its last run has made is disposed.

Tasks, disposals and rounds of reactions call each other, so a run is allowed a number of nested calls.
-/

namespace LiveMarkup.Reactive

inductive Happening where
  /-- The body of a reaction begins. -/
  | began (reaction : OwnerId)
  /-- The body of a reaction reads the value of a cell, which subscribes the reaction. -/
  | read (reaction : OwnerId) (cell : CellId)
  /-- A cell is given a value. -/
  | wrote (cell : CellId)
  deriving Repr, BEq, DecidableEq

structure State (P : Type → Type) (σ ν : Type) where
  graph : Graph P ν := {}
  outside : σ
  /-- What has happened, the newest first. No run depends on it. -/
  history : List Happening := []

/-- A run gives a result or a fault, and the state in which it stopped. -/
abbrev Run (P : Type → Type) (σ ν : Type) := EStateM Fault (State P σ ν)

inductive Job (P : Type → Type) : Type → Type 1 where
  | perform {ι : Type} (task : P ι) : Job P ι
  | dispose (owner : OwnerId) : Job P Unit
  /-- Runs a reaction anew. -/
  | rerun (owner : OwnerId) : Job P Unit
  /-- Runs the queued reactions until none is left. -/
  | drain : Job P Unit

abbrev Runner (P : Type → Type) (σ ν : Type) := {ι : Type} → Job P ι → Run P σ ν ι

namespace Run

variable {P : Type → Type} {σ ν : Type}

def seeGraph {ι : Type} (view : Graph P ν → ι) : Run P σ ν ι := do return view (← get).graph

def alterGraph (change : Graph P ν → Graph P ν) : Run P σ ν Unit :=
  modify fun state => { state with graph := change state.graph }

def changeGraph {ι : Type} (change : Graph P ν → ι × Graph P ν) : Run P σ ν ι :=
  modifyGet fun state =>
    let (result, graph) := change state.graph
    (result, { state with graph })

def note (happening : Happening) : Run P σ ν Unit :=
  modify fun state => { state with history := happening :: state.history }

def noteRead (cell : CellId) : Run P σ ν Unit := do
  match ← seeGraph Graph.observer with
  | none => return
  | some observer => note (.read observer cell)

def store (cell : CellId) (value : ν) : Run P σ ν Unit := do
  alterGraph (·.store cell value)
  note (.wrote cell)

def inContext {ι : Type} (owner observer : Option OwnerId) (body : Run P σ ν ι) : Run P σ ν ι := do
  let before ← seeGraph id
  alterGraph fun graph => { graph with owner, observer }
  let result ← body
  alterGraph fun graph => { graph with owner := before.owner, observer := before.observer }
  return result

variable (self : Runner P σ ν)

/-- Runs the queued reactions, unless that is being done already. -/
def flush : Run P σ ν Unit := do
  if ← seeGraph Graph.flushing then return
  alterGraph fun graph => { graph with flushing := true }
  self .drain
  alterGraph fun graph => { graph with flushing := false }

/-- Lets the subscribers of a cell run: at once, or at the end of the batch. -/
def notify (cell : CellId) : Run P σ ν Unit := do
  unless ← seeGraph (·.cellAlive cell) do return
  alterGraph (·.enqueueSubscribers cell)
  if (← seeGraph Graph.batchDepth) = 0 then flush self

def inBatch {ι : Type} (body : Run P σ ν ι) : Run P σ ν ι := do
  alterGraph fun graph => { graph with batchDepth := graph.batchDepth + 1 }
  let result ← body
  alterGraph fun graph => { graph with batchDepth := graph.batchDepth - 1 }
  if (← seeGraph Graph.batchDepth) = 0 then flush self
  return result

def write (cell : CellId) (value : ν) : Run P σ ν Unit := do
  match ← seeGraph (·.cells.get? cell) with
  | none => return
  | some c =>
    if c.inUse then throw .inUse
    store cell value
    notify self cell

/-- Disposes what an owner has made, the newest first, does its cleanups, the newest first, and ends its
subscriptions. -/
def clean (owner : OwnerId) : Run P σ ν Unit := do
  match ← seeGraph (·.owners.get? owner) with
  | none => return
  | some o =>
    alterGraph (·.resetOwner owner)
    o.children.reverse.forM fun child => self (.dispose child)
    o.cleanups.reverse.forM fun task => self (.perform task)
    alterGraph (·.release owner o.sources o.cells)

def dispose (owner : OwnerId) : Run P σ ν Unit := do
  clean self owner
  alterGraph (·.eraseOwner owner)

/-- Runs a body. A computed value that has not changed notifies nobody, and neither does the first one. -/
def runBody [BEq ν] : Body P ν → Run P σ ν Unit
  | .effect task => self (.perform task)
  | .computed cell task => do
    let value ← self (.perform task)
    match ← seeGraph (·.cells.get? cell) with
    | none => return
    | some c =>
      match c.value with
      | none => store cell value
      | some old =>
        if c.inUse then throw .inUse
        if old == value then return
        write self cell value

def rerun [BEq ν] (owner : OwnerId) : Run P σ ν Unit := do
  match (← seeGraph (·.owners.get? owner)).bind Owner.body with
  | none => return
  | some body =>
    clean self owner
    note (.began owner)
    inContext (some owner) (some owner) (runBody self body)

def drain : Run P σ ν Unit := do
  match ← seeGraph Graph.queue with
  | [] => return
  | next :: rest =>
    alterGraph fun graph => { graph with queue := rest }
    self (.rerun next)
    self .drain

/-- Makes a reaction under the current owner. What its first run writes is seen by others after that run. -/
def newReaction (body : Body P ν) : Run P σ ν OwnerId := do
  let id ← changeGraph fun graph => graph.newOwner graph.owner (some body)
  inBatch self (self (.rerun id))
  return id

def newComputed (task : P ν) : Run P σ ν CellId := do
  let cell ← changeGraph (·.newCell none)
  let _ ← newReaction self (.computed cell task)
  return cell

def read (tracked : Bool) (cell : CellId) : Run P σ ν (Option ν) := do
  if tracked then alterGraph (·.track cell)
  match ← seeGraph (·.cells.get? cell) with
  | none => return none
  | some c =>
    if c.inUse then throw .inUse
    if tracked && c.value.isSome then noteRead cell
    return c.value

def command {ι : Type} : Command P σ ν ι → Run P σ ν ι
  | .state change => modifyGet fun state =>
    let (result, outside) := change state.outside
    (result, { state with outside })
  | .call task => self (.perform task)
  | .newSignal value => changeGraph (·.newCell (some value))
  | .newComputed task => newComputed self task
  | .newEffect task => newReaction self (.effect task)
  | .newRoot => changeGraph (·.newOwner none none)
  | .onDispose task => alterGraph (·.addCleanup task)
  | .dispose owner => dispose self owner
  | .read tracked cell => read tracked cell
  | .write cell value => write self cell value
  | .cellAlive cell => seeGraph (·.cellAlive cell)
  | .ownerAlive owner => seeGraph (·.ownerAlive owner)
  | .currentOwner => seeGraph Graph.owner
  | .tracking => seeGraph (·.observer.isSome)

def inSetting {ι : Type} : Setting → Run P σ ν ι → Run P σ ν ι
  | .batch, body => inBatch self body
  | .untracked, body => do inContext (← seeGraph Graph.owner) none body
  | .ownedBy owner, body => inContext (some owner) none body

/-- Updates a cell in place: it is in use while the new value is computed. -/
def updateCell (cell : CellId) (body : ν → Run P σ ν ν) : Run P σ ν Unit := do
  match ← seeGraph (·.cells.get? cell) with
  | none => return
  | some c =>
    if c.inUse then throw .inUse
    match c.value with
    | none => return
    | some old =>
      alterGraph (·.setInUse cell true)
      let value ← body old
      store cell value
      alterGraph (·.setInUse cell false)
      notify self cell

end Run

variable {P : Type → Type} {σ ν : Type}

def Program.run (self : Runner P σ ν) {α : Type} : Program P σ ν α → Run P σ ν α
  | .done result => pure result
  | .fault why => throw why
  | .command c next => do (next (← Run.command self c)).run self
  | .within setting body next => do (next (← Run.inSetting self setting (body.run self))).run self
  | .update cell body next => do
    Run.updateCell self cell fun old => (body old).run self
    next.run self

/-- Running one program and then another is running the first and then the second. -/
theorem Program.run_pure (self : Runner P σ ν) {α : Type} (value : α) :
    (pure value : Program P σ ν α).run self = pure value := rfl

theorem Program.run_bind (self : Runner P σ ν) {α β : Type} (program : Program P σ ν α) (next : α → Program P σ ν β) :
    (program >>= next).run self = program.run self >>= fun result => (next result).run self := by
  show (program.bind next).run self = _
  induction program with
  | done result => rfl
  | fault why => rfl
  | command c rest ih | within setting body rest _ ih | update cell body rest _ ih =>
    simp only [bind, run, ih]
    exact (bind_assoc ..).symm

theorem Program.run_then {self : Runner P σ ν} {α β : Type} {program : Program P σ ν α} {value : α}
    {state between : State P σ ν} (ran : program.run self state = .ok value between) (next : α → Program P σ ν β) :
    (program >>= next).run self state = (next value).run self between := by
  rw [run_bind]
  show EStateM.bind _ _ _ = _
  rw [EStateM.bind, ran]

abbrev Interpretation (P : Type → Type) (σ ν : Type) := {ι : Type} → P ι → Program P σ ν ι

namespace Job

variable [BEq ν] (meaning : Interpretation P σ ν)

def step (self : Runner P σ ν) {ι : Type} : Job P ι → Run P σ ν ι
  | .perform task => (meaning task).run self
  | .dispose owner => Run.dispose self owner
  | .rerun owner => Run.rerun self owner
  | .drain => Run.drain self

def run : (fuel : Nat) → Runner P σ ν
  | 0, _, _ => throw .exhausted
  | fuel + 1, _, job => step meaning (run fuel) job

end Job

/-- Runs a program with at most `fuel` jobs inside each other. -/
def Program.execute [BEq ν] (meaning : Interpretation P σ ν) (fuel : Nat) {α : Type} (program : Program P σ ν α) :
    Run P σ ν α :=
  program.run (Job.run meaning fuel)

end LiveMarkup.Reactive
