import LiveMarkup.Document.Basic

/-!
Moving nodes about. A node stands in one place at most: putting it somewhere takes it away from where it was.
Putting a fragment somewhere puts its children there.
-/

namespace LiveMarkup.Document

variable {η π : Type}

def detach (doc : Document η π) (n : NodeId) : Document η π :=
  match doc.parent? n with
  | none => doc
  | some parent => (doc.setChildren parent ((doc.children parent).filter (· != n))).setParent n none

def insertInto (n : NodeId) (mark : Option NodeId) : List NodeId → List NodeId
  | [] => [n]
  | m :: rest => if mark = some m then n :: m :: rest else m :: insertInto n mark rest

/-- Puts a node that is no fragment under a parent. A node that is to go before itself goes before the next. -/
def place (doc : Document η π) (parent n : NodeId) (mark : Option NodeId) : Document η π :=
  let mark := if mark = some n then doc.next? n else mark
  let doc := doc.detach n
  let doc := doc.setChildren parent (insertInto n mark (doc.children parent))
  let doc := doc.setParent n (some parent)
  { doc with changes := { doc.changes with inserted := doc.changes.inserted + 1 } }

def placeAll (doc : Document η π) (parent : NodeId) (nodes : List NodeId) (mark : Option NodeId) : Document η π :=
  nodes.foldl (fun doc n => doc.place parent n mark) doc

/-- Puts a node under a parent before a mark, at the end when there is no such child. -/
def insertBefore (doc : Document η π) (parent n : NodeId) (mark : Option NodeId) : Document η π :=
  if doc.isFragment n then doc.placeAll parent (doc.children n) mark else doc.place parent n mark

def append (doc : Document η π) (parent n : NodeId) : Document η π := doc.insertBefore parent n none

def remove (doc : Document η π) (n : NodeId) : Document η π :=
  match doc.parent? n with
  | none => doc
  | some _ =>
    let doc := doc.detach n
    { doc with changes := { doc.changes with removed := doc.changes.removed + 1 } }

def removeAll (doc : Document η π) (nodes : List NodeId) : Document η π := nodes.foldl remove doc

def removeChild (doc : Document η π) (parent n : NodeId) : Document η π :=
  if doc.parent? n = some parent then doc.remove n else doc

def replaceChildren (doc : Document η π) (parent : NodeId) (nodes : List NodeId) : Document η π :=
  nodes.foldl (fun doc n => doc.append parent n) (doc.removeAll (doc.children parent))

/-- Cuts nodes loose from a parent that nothing refers to any more; they then stand nowhere. -/
def orphan (doc : Document η π) (nodes : List NodeId) : Document η π :=
  nodes.foldl (fun doc n => doc.setParent n none) doc

end LiveMarkup.Document
