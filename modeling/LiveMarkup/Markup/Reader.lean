import LiveMarkup.Markup.Piece

/-!
Reading markup into trees. The reader is lenient: a stray end tag is ignored, an end tag closes every
element opened since its own, and what is open at the end is closed there.
-/

namespace LiveMarkup.Markup
open Text

/-- An element that is open, with its children so far, the last one first. -/
structure Frame where
  tag : String
  svg : Bool
  attributes : Attributes
  children : List Tree

/-- The open elements, the innermost first, and the finished roots, the last one first. -/
structure OpenElements where
  frames : List Frame
  roots : List Tree

namespace OpenElements

def start : OpenElements := ⟨[], []⟩

def add (state : OpenElements) (tree : Tree) : OpenElements :=
  match state.frames with
  | [] => { state with roots := tree :: state.roots }
  | frame :: frames => { state with frames := { frame with children := tree :: frame.children } :: frames }

def inSvg (state : OpenElements) : Bool := (state.frames.head?.map Frame.svg).getD false

def closeInnermost (state : OpenElements) : OpenElements :=
  match state.frames with
  | [] => state
  | frame :: frames =>
    add { state with frames } (.element frame.tag frame.svg frame.attributes frame.children.reverse)

def closeMany : Nat → OpenElements → OpenElements
  | 0, state => state
  | n + 1, state => closeMany n state.closeInnermost

/-- Closes the innermost element of that name and all that was opened in it. -/
def close (state : OpenElements) (name : String) : OpenElements :=
  match state.frames.findIdx? (sameIgnoringCase ·.tag name) with
  | some inner => closeMany (inner + 1) state
  | none => state

def step (state : OpenElements) : Piece → OpenElements
  | .comment data => state.add (.comment data)
  | .text data => state.add (.text data)
  | .endTag name => state.close name
  | .rawElement tag attributes body =>
    state.add (.element tag state.inSvg attributes (if body.isEmpty then [] else [.text body]))
  | .startTag tag attributes selfClosing =>
    let svg := state.inSvg || tag == "svg"
    if selfClosing || (!svg && Element.isVoid tag) then state.add (.element tag svg attributes [])
    else { state with frames := ⟨tag, svg, attributes, []⟩ :: state.frames }

def finish (state : OpenElements) : List Tree :=
  (closeMany state.frames.length state).roots.reverse

end OpenElements

/-- What reading gave: the trees, and whether the whole text was read. -/
structure Reading where
  forest : List Tree
  complete : Bool
  deriving Repr

/-- Reads markup up to its end or to the first run of text that cannot be read. -/
def read (markup : String) : Reading :=
  let (pieces, complete) := Piece.scan markup.toList
  ⟨(pieces.foldl OpenElements.step .start).finish, complete⟩

def read? (markup : String) : Option (List Tree) :=
  let reading := read markup
  if reading.complete then some reading.forest else none

end LiveMarkup.Markup
