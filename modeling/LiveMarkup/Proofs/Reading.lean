import LiveMarkup.Proofs.Spelling

/-!
Trees without raw text are read back from what is written of them, with the same characters escaped everywhere. What is
known of the names of attributes is a parameter, and of two attributes of one name the first is read.
-/

namespace LiveMarkup.Markup
open Text Markup.Tree
variable {marks : List Char} {trees : List Tree} {markup : String}

namespace Tree

mutual

/-- Trees that are read back: texts begin in ASCII and are never adjacent, comments do not close themselves, void
elements hold nothing, and below SVG all is SVG. -/
def Readable (names : Attributes → Prop) (inSvg : Bool) : Tree → Prop
  | .text data => ∃ c cs, data.toList = c :: cs ∧ isAscii c
  | .comment data => ¬ "-->".toList <:+: data.toList
  | .element tag svg attributes children =>
    svg = (inSvg || tag == "svg") ∧ TagName tag ∧ names attributes ∧ (isVoid tag svg = true → children = []) ∧
      ReadableAll names svg children

def ReadableAll (names : Attributes → Prop) (inSvg : Bool) : List Tree → Prop
  | [] => True
  | tree :: rest => Readable names inSvg tree ∧ (tree.isText = true → ∀ next ∈ rest.head?, next.isText = false) ∧
    ReadableAll names inSvg rest

end

mutual

def chars (marks : List Char) : Tree → List Char
  | .text data => Entity.escape marks data.toList
  | .comment data => "<!--".toList ++ data.toList ++ "-->".toList
  | .element tag svg attributes children =>
    '<' :: tag.toList ++ attributes.flatMap (attributeChars marks) ++ '>' ::
      (if isVoid tag svg then [] else charsOfAll marks children ++ '<' :: '/' :: tag.toList ++ ['>'])

def charsOfAll (marks : List Char) : List Tree → List Char
  | [] => []
  | tree :: rest => chars marks tree ++ charsOfAll marks rest

end

variable {names : Attributes → Prop}

mutual

theorem Readable.expressible {inSvg : Bool} {tree : Tree} (readable : tree.Readable names inSvg) :
    tree.Expressible names inSvg ∧ tree.Apart ∧ tree.isLegible = true := by
  match tree with
  | .text _ =>
    obtain ⟨_, _, whole, ascii⟩ := readable
    refine ⟨fun empty => ?_, trivial, by simp [isLegible, whole, ascii]⟩
    simp [empty] at whole
  | .comment _ => exact ⟨readable, trivial, rfl⟩
  | .element _ _ _ _ =>
    obtain ⟨within, name, letters, empty, mem⟩ := readable
    obtain ⟨expressible, apart, legible⟩ := ReadableAll.expressible mem
    refine ⟨⟨within, name.readableTag, letters, empty, fun raw => ?_, fun _ => expressible⟩, apart, ?_⟩
    · simp [name.notRaw] at raw
    · simp [isLegible, legible]

theorem ReadableAll.expressible {inSvg : Bool} {trees : List Tree} (readable : ReadableAll names inSvg trees) :
    ExpressibleAll names inSvg trees ∧ ApartAll trees ∧ areLegible trees = true := by
  match trees with
  | [] => exact ⟨trivial, trivial, rfl⟩
  | tree :: trees =>
    obtain ⟨here, apart, later⟩ := readable
    obtain ⟨one, two, three⟩ := Readable.expressible here
    obtain ⟨ones, twos, threes⟩ := ReadableAll.expressible later
    exact ⟨⟨one, ones⟩, ⟨two, apart, twos⟩, by simp [areLegible, three, threes]⟩

end

mutual

theorem Readable.spelled {marks : List Char} (escaping : Entity.Escaping marks) (opening : '<' ∈ marks) (quote : '"' ∈ marks)
    {inSvg : Bool} {tree : Tree} (readable : tree.Readable names inSvg) : tree.Spelled (tree.chars marks) := by
  match tree with
  | .text _ => exact ⟨marks, escaping, opening, rfl⟩
  | .comment _ => rfl
  | .element _ _ _ children =>
    obtain ⟨_, name, _, _, mem⟩ := readable
    refine ⟨marks, charsOfAll marks children, escaping, quote, fun raw => ?_, fun _ => ?_, rfl⟩
    · simp [name.notRaw] at raw
    · exact ReadableAll.spelled escaping opening quote mem

theorem ReadableAll.spelled {marks : List Char} (escaping : Entity.Escaping marks) (opening : '<' ∈ marks)
    (quote : '"' ∈ marks) {inSvg : Bool} {trees : List Tree} (readable : ReadableAll names inSvg trees) :
    SpelledAll trees (charsOfAll marks trees) := by
  match trees with
  | [] => rfl
  | tree :: trees =>
    exact ⟨_, _, rfl, Readable.spelled escaping opening quote readable.1,
      ReadableAll.spelled escaping opening quote readable.2.2⟩

end

end Tree

theorem charsOfAll_append (marks : List Char) (first second : List Tree) :
    charsOfAll marks (first ++ second) = charsOfAll marks first ++ charsOfAll marks second := by
  induction first with
  | nil => rfl
  | cons _ _ ih => simp [charsOfAll, ih]

variable {names : Attributes → Prop}

theorem read_tidied (escaping : Entity.Escaping marks) (opening : '<' ∈ marks) (quote : '"' ∈ marks)
    (named : ∀ attrs, names attrs → ReadableNames attrs) (readable : Tree.ReadableAll names false trees)
    (written : markup.toList = charsOfAll marks trees) : read markup = ⟨tidiedAll trees, true⟩ := by
  obtain ⟨expressible, apart, legible⟩ := readable.expressible
  have spelled := readable.spelled escaping opening quote
  rw [← written] at spelled
  exact (read_spelled named expressible apart spelled).1 legible

theorem read_written (escaping : Entity.Escaping marks) (opening : '<' ∈ marks) (quote : '"' ∈ marks)
    (readable : Tree.ReadableAll OrdinaryNames false trees) (written : markup.toList = charsOfAll marks trees) :
    read markup = ⟨trees, true⟩ := by
  rw [read_tidied escaping opening quote (fun _ => OrdinaryNames.readableNames) readable written,
    tidiedAll_ordinary trees readable.expressible.1]

end LiveMarkup.Markup
