import LiveMarkup.Reactive.Table

/-!
The graph of cells and owners. A cell holds a value and knows who has read it; an owner is a root or a
reaction, and owns everything made while it runs. Cells and owners are numbered in the order in which they
are made. `P` is the type of tasks that bodies are made of and `ν` that of values.
-/

namespace LiveMarkup.Reactive

abbrev CellId := Nat

abbrev OwnerId := Nat

structure Cell (ν : Type) where
  /-- Nothing as long as a computed value has not been computed. -/
  value : Option ν
  /-- Whether the value is being updated in place. -/
  inUse : Bool := false
  /-- The reactions that have read the value, in order. -/
  subscribers : List OwnerId := []
  deriving Repr

/-- What a reaction does when it runs: a task for its own sake, or one whose result goes into a cell. -/
inductive Body (P : Type → Type) (ν : Type) where
  | effect (task : P Unit)
  | computed (cell : CellId) (task : P ν)

structure Owner (P : Type → Type) (ν : Type) where
  parent : Option OwnerId
  /-- Nothing for a root. -/
  body : Option (Body P ν)
  children : List OwnerId := []
  /-- What is to be done when the owner is cleaned, the newest last. -/
  cleanups : List (P Unit) := []
  cells : List CellId := []
  /-- The cells that the last run has read. -/
  sources : List CellId := []

structure Graph (P : Type → Type) (ν : Type) where
  nextId : Nat := 1
  cells : Table (Cell ν) := {}
  owners : Table (Owner P ν) := {}
  /-- Who owns what is made now. -/
  owner : Option OwnerId := none
  /-- Who is subscribed by what is read now. -/
  observer : Option OwnerId := none
  /-- The reactions that are to run, in order. -/
  queue : List OwnerId := []
  flushing : Bool := false
  batchDepth : Nat := 0

def insertSorted (n : Nat) : List Nat → List Nat
  | [] => [n]
  | m :: rest => if n < m then n :: m :: rest else if n = m then m :: rest else m :: insertSorted n rest

namespace Graph

variable {P : Type → Type} {ν : Type}

def cellAlive (graph : Graph P ν) (cell : CellId) : Bool := graph.cells.contains cell

def ownerAlive (graph : Graph P ν) (owner : OwnerId) : Bool := graph.owners.contains owner

def newCell (graph : Graph P ν) (value : Option ν) : CellId × Graph P ν :=
  let id := graph.nextId
  let owners := match graph.owner with
    | none => graph.owners
    | some owner => graph.owners.modify owner fun o => { o with cells := o.cells ++ [id] }
  (id, { graph with nextId := id + 1, cells := graph.cells.insert id { value }, owners })

def newOwner (graph : Graph P ν) (parent : Option OwnerId) (body : Option (Body P ν)) : OwnerId × Graph P ν :=
  let id := graph.nextId
  let owners := graph.owners.insert id { parent, body }
  let owners := match parent with
    | none => owners
    | some parent => owners.modify parent fun o => { o with children := o.children ++ [id] }
  (id, { graph with nextId := id + 1, owners })

def track (graph : Graph P ν) (cell : CellId) : Graph P ν :=
  match graph.observer with
  | none => graph
  | some observer =>
    if graph.cellAlive cell then
      { graph with
        cells := graph.cells.modify cell fun c => { c with subscribers := insertSorted observer c.subscribers }
        owners := graph.owners.modify observer fun o =>
          { o with sources := if o.sources.contains cell then o.sources else cell :: o.sources } }
    else graph

def store (graph : Graph P ν) (cell : CellId) (value : ν) : Graph P ν :=
  { graph with cells := graph.cells.modify cell fun c => { c with value := some value } }

def setInUse (graph : Graph P ν) (cell : CellId) (inUse : Bool) : Graph P ν :=
  { graph with cells := graph.cells.modify cell fun c => { c with inUse } }

def enqueueSubscribers (graph : Graph P ν) (cell : CellId) : Graph P ν :=
  match graph.cells.get? cell with
  | none => graph
  | some c => { graph with queue := c.subscribers.foldl (fun queue id => insertSorted id queue) graph.queue }

/-- Adds something to do when the current owner is cleaned; without an owner it will never be done. -/
def addCleanup (graph : Graph P ν) (task : P Unit) : Graph P ν :=
  match graph.owner with
  | none => graph
  | some owner => { graph with owners := graph.owners.modify owner fun o => { o with cleanups := o.cleanups ++ [task] } }

def resetOwner (graph : Graph P ν) (owner : OwnerId) : Graph P ν :=
  { graph with
    owners := graph.owners.modify owner fun o => { o with children := [], cleanups := [], cells := [], sources := [] } }

def release (graph : Graph P ν) (owner : OwnerId) (sources dropped : List CellId) : Graph P ν :=
  let cells := sources.foldl (fun cells source =>
    cells.modify source fun c => { c with subscribers := c.subscribers.filter (· != owner) }) graph.cells
  { graph with cells := cells.eraseAll dropped }

def eraseOwner (graph : Graph P ν) (owner : OwnerId) : Graph P ν :=
  let owners := graph.owners.erase owner
  let owners := match (graph.owners.get? owner).bind Owner.parent with
    | none => owners
    | some parent => owners.modify parent fun o => { o with children := o.children.filter (· != owner) }
  { graph with owners, queue := graph.queue.filter (· != owner) }

end Graph
end LiveMarkup.Reactive
