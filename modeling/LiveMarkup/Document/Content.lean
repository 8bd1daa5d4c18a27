import LiveMarkup.Document.Arrange
import LiveMarkup.Markup.Reader

/-!
Documents and markup: what a node holds as trees and as markup, nodes made from trees, copies, and the
comparison of what two nodes hold.
-/

namespace LiveMarkup.Document
open Markup (Tree)

variable {η π : Type}

/-- The trees that nodes show, down to a depth of `fuel`; a fragment shows its children. -/
def treesUpTo (doc : Document η π) : (fuel : Nat) → List NodeId → List Tree
  | 0, _ => []
  | fuel + 1, nodes =>
    nodes.flatMap fun n =>
      match doc.node? n with
      | none => []
      | some node =>
        match node.kind with
        | .text => [.text node.data]
        | .comment => [.comment node.data]
        | .element tag svg => [.element tag svg node.attributes (doc.treesUpTo fuel node.children)]
        | .fragment => doc.treesUpTo fuel node.children

/-- The trees that nodes show. No chain of children is longer than the document. -/
def trees (doc : Document η π) (nodes : List NodeId) : List Tree := doc.treesUpTo (doc.nodes.size + 1) nodes

def inRawText (doc : Document η π) (n : NodeId) : Bool :=
  (((doc.parent? n).bind doc.tag?).map Markup.Element.isRawText).getD false

def holdsRawText (doc : Document η π) (n : NodeId) : Bool :=
  ((doc.tag? n).map Markup.Element.isRawText).getD false

def outer (doc : Document η π) (n : NodeId) : String :=
  Tree.renderIn.renderAll (!doc.isFragment n && doc.inRawText n) (doc.trees [n])

def inner (doc : Document η π) (n : NodeId) : String :=
  Tree.renderIn.renderAll (doc.holdsRawText n) (doc.trees (doc.children n))

def textContent (doc : Document η π) (n : NodeId) : String :=
  match doc.kind n with
  | .text => doc.data n
  | .comment => doc.data n
  | _ => Tree.textContent.texts (doc.trees (doc.children n))

/-- Whether two nodes are of one kind and hold the same, down to a depth of `fuel`. -/
def sameUpTo (doc : Document η π) : (fuel : Nat) → NodeId → NodeId → Bool
  | 0, _, _ => false
  | fuel + 1, a, b =>
    match doc.node? a, doc.node? b with
    | some x, some y =>
      x.kind == y.kind && x.data == y.data && Tree.sameAttributes x.attributes y.attributes &&
        x.children.length == y.children.length && (x.children.zip y.children).all fun (c, d) => doc.sameUpTo fuel c d
    | _, _ => false

def same (doc : Document η π) (a b : NodeId) : Bool := doc.sameUpTo (doc.nodes.size + 1) a b

mutual

def addTree (parent : NodeId) : Tree → Document η π → Document η π
  | .text data, doc =>
    let (n, doc) := doc.createText data
    doc.place parent n none
  | .comment data, doc =>
    let (n, doc) := doc.createComment data
    doc.place parent n none
  | .element tag svg attributes children, doc =>
    let (n, doc) := doc.create (.element tag svg) ""
    let doc := doc.modifyNode n fun node => { node with attributes }
    let doc := doc.place parent n none
    addTrees n children doc

def addTrees (parent : NodeId) : List Tree → Document η π → Document η π
  | [], doc => doc
  | tree :: rest, doc => addTrees parent rest (addTree parent tree doc)

end

def ofTrees (doc : Document η π) (forest : List Tree) : NodeId × Document η π :=
  let (n, doc) := doc.createFragment
  (n, addTrees n forest doc)

/-- Copies a node after what was copied before, and its children with `copyAll`. -/
def copyNode (copyAll : List NodeId → Document η π → List NodeId × Document η π) (copies : List NodeId)
    (doc : Document η π) (n : NodeId) : List NodeId × Document η π :=
  let (copy, doc) := doc.create (doc.kind n) (doc.data n)
  let attributes := ((doc.node? n).map Node.attributes).getD []
  let (children, doc) := copyAll (doc.children n) doc
  let doc := doc.modifyNode copy fun node => { node with attributes, children }
  (copies ++ [copy], children.foldl (fun doc child => doc.setParent child (some copy)) doc)

/-- Copies nodes with all they hold down to a depth of `fuel`. Properties and listeners are not copied. -/
def copyUpTo : (fuel : Nat) → List NodeId → Document η π → List NodeId × Document η π
  | 0, _, doc => ([], doc)
  | fuel + 1, nodes, doc =>
    nodes.foldl (fun (copies, doc) n => copyNode (copyUpTo fuel) copies doc n) ([], doc)

def copy (doc : Document η π) (n : NodeId) : NodeId × Document η π :=
  let (copy, doc) := doc.create (doc.kind n) (doc.data n)
  let attributes := ((doc.node? n).map Node.attributes).getD []
  (copy, doc.modifyNode copy fun node => { node with attributes })

def copyDeep (doc : Document η π) (n : NodeId) : NodeId × Document η π :=
  let (copies, doc) := copyUpTo (doc.nodes.size + 1) [n] doc
  (copies.headD n, doc)

end LiveMarkup.Document
