import LiveMarkup.Document.Walker

/-!
Regions in markup that was rendered elsewhere. The comment `$` opens a region and `/$` closes it; a region that is
all an element holds is only closed. A claim is the run of nodes that belongs to one region.
-/

namespace LiveMarkup.Live
open Document

def regionStart : String := "$"

def regionEnd : String := "/$"

section

variable {η π : Type}

def isMarker (doc : Document η π) (n : NodeId) (mark : String) : Bool := doc.isComment n && doc.data n == mark

/-- The first of the nodes that closes more regions than were opened before it, `depth` being open. -/
def closing? (doc : Document η π) : (depth : Nat) → List NodeId → Option NodeId
  | _, [] => none
  | depth, n :: rest =>
    if isMarker doc n regionStart then closing? doc (depth + 1) rest
    else if isMarker doc n regionEnd then if depth = 0 then some n else closing? doc (depth - 1) rest
    else closing? doc depth rest

def regionEnd? (doc : Document η π) (marker : NodeId) : Option NodeId :=
  (doc.parent? marker).bind fun parent =>
    let walker := { Walker.start parent fun n =>
      (isMarker doc n regionStart || isMarker doc n regionEnd) && doc.parent? n == some parent with current := marker }
    closing? doc 0 (walker.rest doc)

end

/-- A run of siblings from `first` up to `ending` or to the last; `next` is the first that is not taken yet. -/
structure Claim where
  parent : NodeId
  first : Option NodeId
  ending : Option NodeId
  next : Option NodeId
  deriving Repr

namespace Claim

def make (parent : NodeId) (first ending : Option NodeId) : Claim := ⟨parent, first, ending, first⟩

variable {η π : Type}

/-- The siblings from a node on up to another, at most `fuel` of them. -/
def run (doc : Document η π) (ending : Option NodeId) : (fuel : Nat) → Option NodeId → List NodeId
  | 0, _ => []
  | _, none => []
  | fuel + 1, some n => if ending = some n then [] else n :: run doc ending fuel (doc.next? n)

def nodes (claim : Claim) (doc : Document η π) : List NodeId := run doc claim.ending doc.nodes.size claim.first

/-- The first element from a node on, regions passed over; at most `fuel` steps. -/
def firstElement? (doc : Document η π) (ending : Option NodeId) : (fuel : Nat) → Option NodeId → Option NodeId
  | 0, _ => none
  | _, none => none
  | fuel + 1, some n =>
    if ending = some n then none
    else if isMarker doc n regionStart then
      firstElement? doc ending fuel ((regionEnd? doc n).bind doc.next?)
    else if (doc.kind n).isElement then some n
    else firstElement? doc ending fuel (doc.next? n)

def takeElement (claim : Claim) (doc : Document η π) (tag : String) : Option NodeId × Claim :=
  match firstElement? doc claim.ending doc.nodes.size claim.next with
  | none => (none, claim)
  | some n =>
    if ((doc.tag? n).map fun t => Text.sameIgnoringCase t tag).getD false then
      (some n, { claim with next := doc.next? n })
    else (none, claim)

def ofMarker? (doc : Document η π) (marker : NodeId) : Option Claim := do
  let parent ← doc.parent? marker
  let ending ← regionEnd? doc marker
  return make parent (doc.next? marker) (some ending)

/-- The claim of the region that is all a parent holds: up to the first marker that closes nothing. -/
def ofParent (doc : Document η π) (parent : NodeId) : Claim :=
  make parent (doc.firstChild? parent) (closing? doc 0 (doc.children parent))

end Claim
end LiveMarkup.Live
