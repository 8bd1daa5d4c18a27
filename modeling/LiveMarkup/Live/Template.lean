import LiveMarkup.Live.Mount

/-!
Templates: nodes that are read once and copied for every use, and the paths that lead to the nodes of a copy.
-/

namespace LiveMarkup.Live
open Document
open Reactive

variable {γ τ : Type}

/-- Reads a template. A single node is the root itself and stands nowhere; anything else stays in its fragment. -/
def newTemplate (markup : String) : LiveProgram γ τ NodeId := do
  let fragment ← readFragment markup
  changeDocument fun doc =>
    match doc.children fragment with
    | [root] => (root, doc.orphan [root])
    | _ => (fragment, doc)

/-- Reads a template whose elements belong to SVG: the first node in an `svg` element. -/
def newSvgTemplate (markup : String) : LiveProgram γ τ NodeId := do
  let fragment ← readFragment ("<svg>" ++ markup ++ "</svg>")
  changeDocument fun doc =>
    match (doc.firstChild? fragment).map doc.children with
    | some (root :: rest) => (root, doc.orphan (root :: rest))
    | _ => (fragment, doc)

/-- Takes the next element of the claim that showing takes from, and counts how that went. -/
def claimElement (tag : String) : LiveProgram γ τ (Option NodeId) :=
  Program.changing fun world =>
    match world.frames with
    | .claiming id :: _ =>
      match world.claims[id]? with
      | none => (none, world)
      | some claim =>
        let (taken, claim) := claim.takeElement world.document tag
        let counts := world.hydration
        (taken,
          { world with
            claims := world.claims.modify id fun _ => claim
            hydration :=
              if taken.isSome then { counts with claims := counts.claims + 1 }
              else { counts with misses := counts.misses + 1 } })
    | _ => (none, world)

/-- A copy of a template, or the element in its place that is there already. -/
def instantiate (root : NodeId) : LiveProgram γ τ NodeId := do
  let claimed ← match ← seeDocument (·.tag? root) with
    | some tag => if ← isHydrating then claimElement tag else pure none
    | none => pure none
  match claimed with
  | some n => return n
  | none => changeDocument (·.copyDeep root)

section

variable {η π : Type}

/-- The next sibling on a path: a marker that opens a region leads behind its end. -/
def nextOnPath? (doc : Document η π) (n : NodeId) : Option NodeId :=
  match if isMarker doc n regionStart then regionEnd? doc n else none with
  | some ending => doc.next? ending
  | none => doc.next? n

/-- Follows a path: `f` goes to the first child and `n` to the next sibling. -/
def follow? (doc : Document η π) (n : NodeId) : List Char → Option NodeId
  | [] => some n
  | 'f' :: rest => (doc.firstChild? n).bind fun n => follow? doc n rest
  | 'n' :: rest => (nextOnPath? doc n).bind fun n => follow? doc n rest
  | _ => none

end

/-- Follows a path; where it leads nowhere there is a new empty comment. -/
def walk (n : NodeId) (path : String) : LiveProgram γ τ NodeId :=
  changeDocument fun doc =>
    match follow? doc n path.toList with
    | some found => (found, doc)
    | none => doc.createComment ""

end LiveMarkup.Live
