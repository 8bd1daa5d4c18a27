import LiveMarkup.Document.Basic

/-!
Walking over what stands below a node in document order.
-/

namespace LiveMarkup.Document

variable {η π : Type}

/-- The next node behind a node and everything in it: its next sibling or that of the nearest node above it
that has one, but nothing behind `root`. -/
def behind (doc : Document η π) (root : NodeId) : (fuel : Nat) → NodeId → Option NodeId
  | 0, _ => none
  | fuel + 1, n =>
    if n = root then none
    else match doc.next? n with
      | some next => some next
      | none => (doc.parent? n).bind (doc.behind root fuel)

/-- The node after another in document order, as far as `root` reaches. -/
def following (doc : Document η π) (root n : NodeId) : Option NodeId :=
  match doc.firstChild? n with
  | some child => some child
  | none => doc.behind root (doc.nodes.size + 1) n

/-- The nodes after another in document order, at most `fuel` of them. -/
def followingUpTo (doc : Document η π) (root : NodeId) : (fuel : Nat) → NodeId → List NodeId
  | 0, _ => []
  | fuel + 1, n =>
    match doc.following root n with
    | none => []
    | some next => next :: doc.followingUpTo root fuel next

def allFollowing (doc : Document η π) (root n : NodeId) : List NodeId :=
  doc.followingUpTo root doc.nodes.size n

/-- A cursor over the nodes below `root` that passes over those it does not accept. -/
structure Walker where
  root : NodeId
  current : NodeId
  accepts : NodeId → Bool

namespace Walker

def start (root : NodeId) (accepts : NodeId → Bool) : Walker := ⟨root, root, accepts⟩

def next? (walker : Walker) (doc : Document η π) : Option (NodeId × Walker) :=
  ((doc.allFollowing walker.root walker.current).find? walker.accepts).map fun n => (n, { walker with current := n })

/-- The accepted nodes that come after the cursor. -/
def rest (walker : Walker) (doc : Document η π) : List NodeId :=
  (doc.allFollowing walker.root walker.current).filter walker.accepts

end Walker
end LiveMarkup.Document
