import LiveMarkup.Document.Node

/-!
Documents: nodes under their numbers, with the counts of what was done. Looking at a node that does not exist
gives the empty answer, so that every operation is total.
-/

namespace LiveMarkup

structure Document (η π : Type) where
  nodes : Array (Document.Node η π) := #[]
  changes : Document.Changes := {}
  nextListener : Document.ListenerId := 1

namespace Document

variable {η π : Type}

def node? (doc : Document η π) (n : NodeId) : Option (Node η π) := doc.nodes[n]?

def kind (doc : Document η π) (n : NodeId) : Kind := ((doc.node? n).map Node.kind).getD .fragment

def data (doc : Document η π) (n : NodeId) : String := ((doc.node? n).map Node.data).getD ""

def parent? (doc : Document η π) (n : NodeId) : Option NodeId := (doc.node? n).bind Node.parent

def children (doc : Document η π) (n : NodeId) : List NodeId := ((doc.node? n).map Node.children).getD []

def tag? (doc : Document η π) (n : NodeId) : Option String := (doc.kind n).tag?

def isText (doc : Document η π) (n : NodeId) : Bool := doc.kind n == .text

def isComment (doc : Document η π) (n : NodeId) : Bool := doc.kind n == .comment

def isFragment (doc : Document η π) (n : NodeId) : Bool := doc.kind n == .fragment

def modifyNode (doc : Document η π) (n : NodeId) (f : Node η π → Node η π) : Document η π :=
  { doc with nodes := doc.nodes.modify n f }

def create (doc : Document η π) (kind : Kind) (data : String) : NodeId × Document η π :=
  (doc.nodes.size,
    { doc with
      nodes := doc.nodes.push { kind, data }
      changes := { doc.changes with created := doc.changes.created + 1 } })

/-- An element; the element `svg` begins SVG. -/
def createElement (doc : Document η π) (tag : String) : NodeId × Document η π :=
  doc.create (.element tag (tag == "svg")) ""

def createText (doc : Document η π) (data : String) : NodeId × Document η π := doc.create .text data

def createComment (doc : Document η π) (data : String) : NodeId × Document η π := doc.create .comment data

def createFragment (doc : Document η π) : NodeId × Document η π := doc.create .fragment ""

def setData (doc : Document η π) (n : NodeId) (data : String) : Document η π :=
  doc.modifyNode n fun node => { node with data }

def setParent (doc : Document η π) (n : NodeId) (parent : Option NodeId) : Document η π :=
  doc.modifyNode n fun node => { node with parent }

def setChildren (doc : Document η π) (n : NodeId) (children : List NodeId) : Document η π :=
  doc.modifyNode n fun node => { node with children }

@[simp]
theorem node?_modifyNode (doc : Document η π) (n m : NodeId) (f : Node η π → Node η π) :
    (doc.modifyNode n f).node? m = if n = m then (doc.node? m).map f else doc.node? m := by
  simp [node?, modifyNode, Array.getElem?_modify]

@[simp]
theorem parent?_setParent (doc : Document η π) (n m : NodeId) (parent : Option NodeId) :
    (doc.setParent n parent).parent? m =
      if n = m then (doc.node? m).bind fun _ => parent else doc.parent? m := by
  by_cases same : n = m <;> cases found : doc.node? m <;> simp [parent?, setParent, same, found]

@[simp]
theorem children_setParent (doc : Document η π) (n m : NodeId) (parent : Option NodeId) :
    (doc.setParent n parent).children m = doc.children m := by
  by_cases same : n = m <;> cases found : doc.node? m <;> simp [children, setParent, same, found]

@[simp]
theorem parent?_setChildren (doc : Document η π) (n m : NodeId) (nodes : List NodeId) :
    (doc.setChildren n nodes).parent? m = doc.parent? m := by
  by_cases same : n = m <;> cases found : doc.node? m <;> simp [parent?, setChildren, same, found]

@[simp]
theorem children_setChildren (doc : Document η π) (n m : NodeId) (nodes : List NodeId) :
    (doc.setChildren n nodes).children m =
      if n = m then ((doc.node? m).map fun _ => nodes).getD [] else doc.children m := by
  by_cases same : n = m <;> cases found : doc.node? m <;> simp [children, setChildren, same, found]

/-- The neighbours of a node in its parent's list: the one before and the one behind. -/
def neighbours (n : NodeId) : List NodeId → Option (Option NodeId × Option NodeId)
  | [] => none
  | first :: rest => go none first rest
where
  go (before : Option NodeId) (current : NodeId) : List NodeId → Option (Option NodeId × Option NodeId)
    | [] => if current = n then some (before, none) else none
    | next :: rest => if current = n then some (before, some next) else go (some current) next rest

def siblings? (doc : Document η π) (n : NodeId) : Option (Option NodeId × Option NodeId) :=
  (doc.parent? n).bind fun parent => neighbours n (doc.children parent)

def next? (doc : Document η π) (n : NodeId) : Option NodeId := (doc.siblings? n).bind Prod.snd

def previous? (doc : Document η π) (n : NodeId) : Option NodeId := (doc.siblings? n).bind Prod.fst

def firstChild? (doc : Document η π) (n : NodeId) : Option NodeId := (doc.children n).head?

def lastChild? (doc : Document η π) (n : NodeId) : Option NodeId := (doc.children n).getLast?

/-- The nodes above a node, the nearest first, at most `fuel` of them. -/
def ancestorsUpTo (doc : Document η π) : (fuel : Nat) → NodeId → List NodeId
  | 0, _ => []
  | fuel + 1, n =>
    match doc.parent? n with
    | none => []
    | some parent => parent :: doc.ancestorsUpTo fuel parent

/-- The nodes above a node, the nearest first. No chain of parents is longer than the document. -/
def ancestors (doc : Document η π) (n : NodeId) : List NodeId := doc.ancestorsUpTo doc.nodes.size n

def holds (doc : Document η π) (n other : NodeId) : Bool := n == other || (doc.ancestors other).contains n

end Document
end LiveMarkup
