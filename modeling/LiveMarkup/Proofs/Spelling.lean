import LiveMarkup.Proofs.Scanning

/-!
Trees are read back from what spells them. What spells a tree escapes its texts and attributes, here in one way and there
in another; what is known of the names of attributes is a parameter, and of two attributes of one name the first is read.
A run of text that begins outside ASCII is where reading ends.
-/

namespace LiveMarkup.Markup
open Text List Markup.Tree

variable {tag : String} {trees : List Tree}

namespace Tree

def isText : Tree → Bool
  | .text _ => true
  | _ => false

def isVoid (tag : String) (svg : Bool) : Bool := !svg && Element.isVoid tag

/-- The content of an element of raw text: one text in which the element does not end, or nothing. -/
def RawContent (tag : String) (children : List Tree) : Prop :=
  children = [] ∨ ∃ body, children = [.text body] ∧ body ≠ "" ∧ ¬ ("</" ++ tag).toList <:+: body.toList

mutual

/-- Trees that markup can say: texts are not empty, comments do not close themselves, void elements hold nothing, elements
of raw text hold one text that does not end them, and below SVG all is SVG. -/
def Expressible (names : Attributes → Prop) (inSvg : Bool) : Tree → Prop
  | .text data => data ≠ ""
  | .comment data => ¬ "-->".toList <:+: data.toList
  | .element tag svg attributes children =>
    svg = (inSvg || tag == "svg") ∧ ReadableTag tag ∧ names attributes ∧ (isVoid tag svg = true → children = []) ∧
      (Element.isRawText tag = true → RawContent tag children) ∧
      (Element.isRawText tag = false → ExpressibleAll names svg children)

def ExpressibleAll (names : Attributes → Prop) (inSvg : Bool) : List Tree → Prop
  | [] => True
  | tree :: rest => Expressible names inSvg tree ∧ ExpressibleAll names inSvg rest

end

mutual

def Apart : Tree → Prop
  | .element _ _ _ children => ApartAll children
  | _ => True

def ApartAll : List Tree → Prop
  | [] => True
  | tree :: rest => Apart tree ∧ (tree.isText = true → ∀ next ∈ rest.head?, next.isText = false) ∧ ApartAll rest

end

mutual

def isLegible : Tree → Bool
  | .text data => (data.toList.head?.map isAscii).getD true
  | .comment _ => true
  | .element tag _ _ children => Element.isRawText tag || areLegible children

def areLegible : List Tree → Bool
  | [] => true
  | tree :: rest => isLegible tree && areLegible rest

end

mutual

def Spelled : Tree → List Char → Prop
  | .text data, cs => ∃ marks, Entity.Escaping marks ∧ '<' ∈ marks ∧ cs = Entity.escape marks data.toList
  | .comment data, cs => cs = "<!--".toList ++ data.toList ++ "-->".toList
  | .element tag svg attributes children, cs => ∃ marks inner, Entity.Escaping marks ∧ '"' ∈ marks ∧
      (Element.isRawText tag = true → inner = (renderIn.renderAll true children).toList) ∧
      (Element.isRawText tag = false → SpelledAll children inner) ∧
      cs = '<' :: tag.toList ++ attributes.flatMap (attributeChars marks) ++ '>' ::
        (if isVoid tag svg then [] else inner ++ '<' :: '/' :: tag.toList ++ ['>'])

def SpelledAll : List Tree → List Char → Prop
  | [], cs => cs = []
  | tree :: rest, cs => ∃ first others, cs = first ++ others ∧ Spelled tree first ∧ SpelledAll rest others

end

mutual

def pieces : Tree → List Piece
  | .text data => [.text data]
  | .comment data => [.comment data]
  | .element tag svg attributes children =>
    if Element.isRawText tag then
      [.rawElement tag (addAttributes [] attributes) (renderIn.renderAll true children)]
    else .startTag tag (addAttributes [] attributes) false ::
      if isVoid tag svg then [] else piecesOfAll children ++ [.endTag tag]

def piecesOfAll : List Tree → List Piece
  | [] => []
  | tree :: rest => pieces tree ++ piecesOfAll rest

end

mutual

def tidied : Tree → Tree
  | .text data => .text data
  | .comment data => .comment data
  | .element tag svg attributes children => .element tag svg (addAttributes [] attributes) (tidiedAll children)

def tidiedAll : List Tree → List Tree
  | [] => []
  | tree :: rest => tidied tree :: tidiedAll rest

end

theorem isVoid_of_isRawText (raw : Element.isRawText tag = true) (svg : Bool) : isVoid tag svg = false := by
  simp only [Element.isRawText, Bool.or_eq_true, beq_iff_eq] at raw
  rcases raw with rfl | rfl <;> cases svg <;> decide

theorem SpelledAll.head {cs : List Char} (spelled : SpelledAll trees cs) {rest : List Char}
    (apart : ∀ next ∈ trees.head?, next.isText = false) (closed : ∀ c ∈ rest.head?, c = '<') :
    ∀ c ∈ (cs ++ rest).head?, c = '<' := by
  match trees with
  | [] =>
    obtain rfl : cs = [] := spelled
    exact closed
  | .text data :: trees => exact absurd (apart _ rfl) (by simp [isText])
  | .comment data :: trees =>
    obtain ⟨_, _, rfl, rfl, _⟩ := spelled
    rintro _ ⟨⟩
    rfl
  | .element tag svg attrs children :: trees =>
    obtain ⟨_, _, rfl, ⟨_, _, _, _, _, _, rfl⟩, _⟩ := spelled
    rintro _ ⟨⟩
    rfl

end Tree

section Scanning
open Piece

variable {names : Attributes → Prop}

mutual

theorem scan_tree (named : ∀ attrs, names attrs → ReadableNames attrs) {inSvg : Bool} {tree : Tree}
    (expressible : tree.Expressible names inSvg) (apart : tree.Apart) {cs : List Char} (spelled : tree.Spelled cs)
    (rest : List Char) (closed : tree.isText = true → ∀ c ∈ rest.head?, c = '<') :
    (tree.isLegible = true → scan (cs ++ rest) = (tree.pieces ++ (scan rest).1, (scan rest).2)) ∧
      (tree.isLegible = false → (scan (cs ++ rest)).2 = false) := by
  match tree with
  | .text data =>
    obtain ⟨_, escaping, opening, rfl⟩ := spelled
    have some : data.toList ≠ [] := by simpa [Tree.Expressible] using expressible
    obtain ⟨_, _, whole⟩ := exists_cons_of_ne_nil some
    simpa [isLegible, pieces, whole] using scan_text escaping opening whole rest (closed rfl)
  | .comment _ =>
    obtain rfl : cs = _ := spelled
    exact ⟨fun _ => scan_comment expressible rest, by simp [isLegible]⟩
  | .element tag svg attrs children =>
    obtain ⟨_, name, letters, empty, raw, inner⟩ := expressible
    obtain ⟨marks, content, escaping, quote, rawly, within, rfl⟩ := spelled
    cases kind : Element.isRawText tag with
    | true =>
      have opened := isVoid_of_isRawText kind svg
      refine ⟨fun _ => ?_, by simp [isLegible, kind]⟩
      have plain : ¬ ("</" ++ tag).toList <:+: (renderIn.renderAll true children).toList := by
        rcases raw kind with rfl | ⟨body, rfl, _, plain⟩
        · simp [renderIn.renderAll]
        · simpa [renderIn.renderAll, renderIn] using plain
      have scanned := scan_rawElement escaping quote name kind (named attrs letters) plain rest
      rw [rawly kind]
      simpa [pieces, kind, opened] using scanned
    | false =>
      have start := scan_startTag escaping quote name kind (named attrs letters)
      cases void : isVoid tag svg with
      | true =>
        obtain rfl := empty void
        refine ⟨fun _ => ?_, by simp [isLegible, areLegible]⟩
        simpa [pieces, kind, void] using start rest
      | false =>
        obtain ⟨reads, ends⟩ := scan_forest named (inner kind) apart (within kind)
          ('<' :: '/' :: tag.toList ++ '>' :: rest) (by simp)
        have shape : '<' :: tag.toList ++ attrs.flatMap (attributeChars marks) ++ '>' ::
            (content ++ '<' :: '/' :: tag.toList ++ ['>']) ++ rest =
            '<' :: tag.toList ++ attrs.flatMap (attributeChars marks) ++ '>' ::
              (content ++ ('<' :: '/' :: tag.toList ++ '>' :: rest)) := by
          simp
        rw [if_neg (by simp), shape, start]
        simp only [isLegible, kind, Bool.false_or]
        refine ⟨fun legible => ?_, ends⟩
        rw [reads legible, scan_endTag name]
        simp [pieces, kind, void]

theorem scan_forest (named : ∀ attrs, names attrs → ReadableNames attrs) {inSvg : Bool}
    {trees : List Tree} (expressible : Tree.ExpressibleAll names inSvg trees) (apart : Tree.ApartAll trees)
    {cs : List Char} (spelled : Tree.SpelledAll trees cs) (rest : List Char) (closed : ∀ c ∈ rest.head?, c = '<') :
    (areLegible trees = true → scan (cs ++ rest) = (piecesOfAll trees ++ (scan rest).1, (scan rest).2)) ∧
      (areLegible trees = false → (scan (cs ++ rest)).2 = false) := by
  match trees with
  | [] =>
    obtain rfl : cs = [] := spelled
    exact ⟨fun _ => rfl, by simp [areLegible]⟩
  | tree :: trees =>
    obtain ⟨_, others, rfl, here, later⟩ := spelled
    obtain ⟨one, two⟩ := scan_tree named expressible.1 apart.1 here (others ++ rest)
      fun text => later.head (apart.2.1 text) closed
    obtain ⟨reads, ends⟩ := scan_forest named expressible.2 apart.2.2 later rest closed
    rw [areLegible, append_assoc]
    cases legible : tree.isLegible with
    | false => exact ⟨by simp, fun _ => two legible⟩
    | true =>
      rw [one legible, Bool.true_and]
      refine ⟨fun legible => ?_, ends⟩
      rw [reads legible]
      simp [piecesOfAll]

end

end Scanning

section Building
open OpenElements

def OpenElements.addAll (state : OpenElements) (trees : List Tree) : OpenElements := trees.foldl add state

theorem inSvg_add (state : OpenElements) (tree : Tree) : (state.add tree).inSvg = state.inSvg := by
  unfold add
  split <;> simp [inSvg, *]

theorem addAll_frame (frame : Frame) (frames : List Frame) (roots : List Tree) (trees : List Tree) :
    (OpenElements.mk (frame :: frames) roots).addAll trees =
      ⟨{ frame with children := trees.reverse ++ frame.children } :: frames, roots⟩ := by
  induction trees generalizing frame with
  | nil => rfl
  | cons tree _ ih =>
    rw [addAll, foldl_cons]
    have step := ih { frame with children := tree :: frame.children }
    rw [addAll] at step
    simpa [add] using step

theorem addAll_roots (roots trees : List Tree) :
    (OpenElements.mk [] roots).addAll trees = ⟨[], trees.reverse ++ roots⟩ := by
  induction trees generalizing roots with
  | nil => rfl
  | cons tree _ ih =>
    rw [addAll, foldl_cons]
    have step := ih (tree :: roots)
    rw [addAll] at step
    simpa [add] using step

theorem close_innermost (svg : Bool) (attrs : Attributes) (children : List Tree)
    (frames : List Frame) (roots : List Tree) :
    (OpenElements.mk (⟨tag, svg, attrs, children⟩ :: frames) roots).close tag =
      (OpenElements.mk frames roots).add (.element tag svg attrs children.reverse) := by
  have first : sameIgnoringCase tag tag = true := by simp [sameIgnoringCase]
  simp [close, findIdx?_cons, first, closeMany, closeInnermost]

variable {names : Attributes → Prop}

mutual

theorem step_pieces (state : OpenElements) (tree : Tree) (expressible : tree.Expressible names state.inSvg) :
    tree.pieces.foldl step state = state.add tree.tidied := by
  match tree with
  | .text _ => rfl
  | .comment _ => rfl
  | .element tag svg attrs children =>
    obtain ⟨within, _, _, empty, raw, mem⟩ := expressible
    rw [pieces]
    cases kind : Element.isRawText tag with
    | true =>
      have notSvg : (tag == "svg") = false := by
        simp only [Element.isRawText, Bool.or_eq_true, beq_iff_eq] at kind
        rcases kind with rfl | rfl <;> rfl
      rw [notSvg, Bool.or_false] at within
      rcases raw kind with rfl | ⟨body, rfl, some, _⟩
      · simp [renderIn.renderAll, step, within, tidied, tidiedAll]
      · simp [renderIn.renderAll, renderIn, step, within, tidied, tidiedAll, some]
    | false =>
      rw [if_neg (by simp), foldl_cons]
      by_cases void : isVoid tag svg = true
      · obtain rfl := empty void
        have alone : state.step (.startTag tag (addAttributes [] attrs) false) =
            state.add (.element tag svg (addAttributes [] attrs) []) := by
          rw [isVoid] at void
          simp only [step, ← within, void, Bool.false_or, if_true]
        rw [alone, if_pos void]
        rfl
      · have opened : state.step (.startTag tag (addAttributes [] attrs) false) =
            ⟨⟨tag, svg, addAttributes [] attrs, []⟩ :: state.frames, state.roots⟩ := by
          rw [isVoid] at void
          simp only [step, ← within, void, Bool.false_or]
          rfl
        have below := step_piecesOfAll ⟨⟨tag, svg, addAttributes [] attrs, []⟩ :: state.frames, state.roots⟩
          children (mem kind)
        rw [opened, if_neg void, foldl_append, below, addAll_frame]
        simp [step, close_innermost, tidied]

theorem step_piecesOfAll (state : OpenElements) (trees : List Tree)
    (expressible : Tree.ExpressibleAll names state.inSvg trees) :
    (piecesOfAll trees).foldl step state = state.addAll (tidiedAll trees) := by
  match trees with
  | [] => rfl
  | tree :: trees =>
    rw [piecesOfAll, foldl_append, step_pieces state tree expressible.1,
      step_piecesOfAll (state.add tree.tidied) trees (by rw [inSvg_add]; exact expressible.2)]
    rfl

end

theorem read_spelled (named : ∀ attrs, names attrs → ReadableNames attrs)
    (expressible : Tree.ExpressibleAll names false trees) (apart : Tree.ApartAll trees) {markup : String}
    (spelled : Tree.SpelledAll trees markup.toList) :
    (areLegible trees = true → read markup = ⟨tidiedAll trees, true⟩) ∧
      (areLegible trees = false → (read markup).complete = false) := by
  obtain ⟨reads, ends⟩ := scan_forest named expressible apart spelled [] (by simp)
  rw [append_nil] at reads ends
  refine ⟨fun legible => ?_, ends⟩
  have built := step_piecesOfAll .start trees expressible
  have empty : Piece.scan [] = ([], true) := by rw [Piece.scan]
  have whole : OpenElements.start.addAll (tidiedAll trees) = ⟨[], (tidiedAll trees).reverse⟩ := by
    simpa [start] using addAll_roots [] (tidiedAll trees)
  simp only [read, reads legible, empty, append_nil, built, whole]
  simp [finish, closeMany]

mutual

theorem tidied_ordinary {inSvg : Bool} (tree : Tree) (expressible : tree.Expressible OrdinaryNames inSvg) :
    tree.tidied = tree := by
  match tree with
  | .text _ => rfl
  | .comment _ => rfl
  | .element tag _ _ children =>
    obtain ⟨_, _, ordinary, _, raw, mem⟩ := expressible
    rw [tidied, addAttributes_ordinary [] ordinary, nil_append]
    cases kind : Element.isRawText tag with
    | true => rcases raw kind with rfl | ⟨body, rfl, _⟩ <;> rfl
    | false => rw [tidiedAll_ordinary children (mem kind)]

theorem tidiedAll_ordinary {inSvg : Bool} (trees : List Tree)
    (expressible : Tree.ExpressibleAll OrdinaryNames inSvg trees) : tidiedAll trees = trees := by
  match trees with
  | [] => rfl
  | tree :: trees =>
    rw [tidiedAll, tidied_ordinary tree expressible.1, tidiedAll_ordinary trees expressible.2]

end

end Building

end LiveMarkup.Markup
