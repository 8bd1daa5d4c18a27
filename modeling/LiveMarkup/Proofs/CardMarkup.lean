import LiveMarkup.Proofs.CardTrees

/-!
The markup that a server sends for a card is read as the card's tree.
-/

namespace LiveMarkup.Card
open Document Live Markup Text List Entity
open String hiding chars
open Markup.Tree hiding isText

theorem repr_chars (n : Nat) : (∃ c cs, n.repr.toList = c :: cs ∧ c.isDigit = true) ∧ ∀ c ∈ n.repr.toList, c.isDigit = true := by
  have chars : n.repr.toList = Nat.toDigits 10 n := by simp [Nat.repr]
  have digits : ∀ c ∈ n.repr.toList, c.isDigit = true := by
    intro c mem
    rw [chars] at mem
    exact Nat.isDigit_of_mem_toDigits (by decide) (by decide) mem
  refine ⟨?_, digits⟩
  cases shown : n.repr.toList with
  | nil =>
    have positive := @Nat.length_toDigits_pos 10 n
    rw [← chars, shown] at positive
    simp at positive
  | cons c cs => exact ⟨c, cs, rfl, digits c (by simp [shown])⟩

theorem isAscii_of_isDigit {c : Char} (digit : c.isDigit = true) : isAscii c = true := by
  have bound : c.val ≤ 57 := by
    simp only [Char.isDigit, Bool.and_eq_true, decide_eq_true_eq] at digit
    exact digit.2
  have small : c.val.toNat ≤ 57 := UInt32.le_iff_toNat_le.mp bound
  have below : c.toNat < 128 := Nat.lt_of_le_of_lt small (by decide)
  simpa [isAscii] using below

theorem toString_chars (n : Int) : (∃ c cs, (toString n).toList = c :: cs ∧ isAscii c) ∧
    ∀ c ∈ (toString n).toList, c = '-' ∨ c.isDigit = true := by
  rw [Int.toString_eq_repr, Int.repr_eq_if]
  split
  · obtain ⟨⟨c, cs, first, digit⟩, digits⟩ := repr_chars n.toNat
    exact ⟨⟨c, cs, first, isAscii_of_isDigit digit⟩, fun c mem => .inr (digits c mem)⟩
  · obtain ⟨_, digits⟩ := repr_chars (-n).toNat
    have chars : ("-" ++ (-n).toNat.repr).toList = '-' :: (-n).toNat.repr.toList := by simp
    rw [chars]
    refine ⟨⟨'-', _, rfl, by decide⟩, fun c mem => ?_⟩
    rcases mem_cons.mp mem with rfl | later
    · exact .inl rfl
    · exact .inr (digits c later)

theorem toString_ne_empty (n : Int) : toString n ≠ "" := by
  obtain ⟨⟨_, _, chars, _⟩, _⟩ := toString_chars n
  intro empty
  simp [empty] at chars

theorem escape_toString (n : Int) : escape allMarks (toString n).toList = (toString n).toList := by
  refine escape_of_plain fun c mem => ?_
  rcases (toString_chars n).2 c mem with rfl | digit
  · decide
  · intro marked
    simp only [allMarks, mem_cons, not_mem_nil, or_false] at marked
    rcases marked with rfl | rfl | rfl | rfl | rfl <;> simp at digit

section Server

variable {attrs : Attributes} {items : List String}

def classNames (card : Card) : List String := toggled (wordsOf card.kind) "active" card.active

def serverAttributes (card : Card) : Attributes :=
  ((classText (classNames card)).toList.map fun text => ("class", text)) ++
    card.tone.toList.map fun tone => ("style", Style.color tone)

def serverTree (card : Card) : Tree :=
  frameTree true (serverAttributes card) [("title", card.title)] card.title (toString card.count) card.items

/-- Text that is read back as it was written, which takes an ASCII character at its beginning. -/
def Legible (data : String) : Prop := ∀ c ∈ data.toList.head?, isAscii c = true

theorem classesMarkup_chars (card : Card) : (classesMarkup (some card.kind) [("active", card.active)]).toList =
      ((classText (classNames card)).toList.map fun text => ("class", text)).flatMap
        (attributeChars allMarks) := by
  unfold classesMarkup classText classNames
  simp only [Option.getD_some, foldl_cons, foldl_nil, List.isEmpty_iff]
  split
  · simp
  · simp [attributeMarkup, attributeChars, escapeAll]

theorem stylesMarkup_chars (card : Card) : (stylesMarkup (some "") [("color", card.tone)]).toList =
      (card.tone.toList.map fun tone => ("style", Style.color tone)).flatMap (attributeChars allMarks) := by
  have empty : Style.parse "" = [] := by decide
  unfold stylesMarkup
  simp only [Option.getD_some, empty, foldl_cons, foldl_nil]
  cases card.tone with
  | none => simp [removeFirst]
  | some =>
    simp [putEntry, attributeMarkup, attributeChars, escapeAll, Style.render_color]

theorem charsOfAll_lineTrees (data : String) : charsOfAll allMarks (lineTrees true data) =
      escape allMarks data.toList ++ "<!--/$-->".toList := by
  unfold lineTrees endTrees
  by_cases empty : data = ""
  · subst empty
    rfl
  · rw [if_neg empty]
    rfl

theorem child_chars (data : String) : (child (escapeAll data)).toList = charsOfAll allMarks (lineTrees true data) := by
  rw [charsOfAll_lineTrees, child, escapeAll, toList_append, toList_ofList]
  rfl

theorem itemMarkup_chars (item : String) : (itemMarkup item).toList = chars allMarks (itemTree true item) := by
  have li : isVoid "li" false = false := by decide
  unfold itemMarkup
  simp only [Live.interleave, toList_append, child_chars]
  simp [itemTree, chars, join, li]

theorem items_chars (items : List String) :
    (join (items.map itemMarkup)).toList = charsOfAll allMarks (items.map (itemTree true)) := by
  induction items with
  | nil => rfl
  | cons item items ih =>
    have first : join ((item :: items).map itemMarkup) = itemMarkup item ++ join (items.map itemMarkup) := by
      simp [join_cons]
    rw [first, toList_append, itemMarkup_chars, ih]
    rfl

theorem markup_chars (card : Card) : card.markup.toList = charsOfAll allMarks [serverTree card] := by
  have count : (child (toString card.count)).toList =
      charsOfAll allMarks (lineTrees true (toString card.count)) := by
    rw [charsOfAll_lineTrees, escape_toString, child, toList_append]
    rfl
  have list : (child (join (card.items.map itemMarkup))).toList =
      charsOfAll allMarks (card.items.map (itemTree true) ++ endTrees true) := by
    rw [charsOfAll_append, child, toList_append, items_chars]
    rfl
  have title : (attributeMarkup "title" (some card.title)).toList =
      attributeChars allMarks ("title", card.title) := by
    simp [attributeMarkup, attributeChars, escapeAll]
  unfold markup
  simp only [Live.interleave, toList_append, classesMarkup_chars, stylesMarkup_chars, title, child_chars, count, list]
  have label : escape allMarks ['C', 'o', 'u', 'n', 't', ':', ' '] = ['C', 'o', 'u', 'n', 't', ':', ' '] := rfl
  have plus : escape allMarks ['+'] = ['+'] := rfl
  have closed : ∀ tag ∈ ["div", "h1", "p", "button", "ul"], isVoid tag false = false := by decide
  simp [serverTree, frameTree, serverAttributes, charsOfAll, chars, label, plus, regionStart, closed]

theorem readable_regionStart : Tree.Readable OrdinaryNames false (.comment regionStart) := by
  show ¬ "-->".toList <:+: "$".toList
  decide

theorem readable_regionEnd : Tree.Readable OrdinaryNames false (.comment regionEnd) := by
  show ¬ "-->".toList <:+: "/$".toList
  decide

theorem readableAll_endTrees (closed : Bool) : Tree.ReadableAll OrdinaryNames false (endTrees closed) := by
  cases closed with
  | false => trivial
  | true => exact ⟨readable_regionEnd, by simp, trivial⟩

theorem readableAll_lineTrees {data : String} (legible : Legible data) (closed : Bool) :
    Tree.ReadableAll OrdinaryNames false (lineTrees closed data) := by
  unfold lineTrees
  by_cases empty : data = ""
  · rw [if_pos empty]
    exact readableAll_endTrees closed
  · rw [if_neg empty]
    cases chars : data.toList with
    | nil => exact absurd (toList_eq_nil_iff.mp chars) empty
    | cons c cs =>
      refine ⟨⟨c, cs, chars, legible c (by simp [chars])⟩, fun _ next first => ?_, readableAll_endTrees closed⟩
      cases closed with
      | false => simp [endTrees] at first
      | true =>
        obtain rfl : comment regionEnd = next := by simpa [endTrees] using first
        rfl

theorem readable_element {tag : String} (ordinary : OrdinaryTag tag) (names : OrdinaryNames attrs) {children : List Tree}
    (readable : Tree.ReadableAll OrdinaryNames false children) :
    Tree.Readable OrdinaryNames false (.element tag false attrs children) :=
  ⟨by simp [ordinary.notSvg], ordinary.toTagName, names, by simp [isVoid, ordinary.notVoid], readable⟩

theorem readableAll_items (legible : ∀ item ∈ items, Legible item) (closed : Bool) :
    Tree.ReadableAll OrdinaryNames false (items.map (itemTree closed) ++ endTrees closed) := by
  have li : OrdinaryTag "li" := by decide
  induction items with
  | nil => exact readableAll_endTrees closed
  | cons item _ ih =>
    refine ⟨readable_element li ⟨by simp, by simp⟩ (readableAll_lineTrees (legible item (by simp)) closed), by
      simp [itemTree, Tree.isText], ih fun other mem => legible other (by simp [mem])⟩

theorem legible_toString (n : Int) : Legible (toString n) := by
  obtain ⟨⟨_, _, chars, ascii⟩, _⟩ := toString_chars n
  intro d first
  rw [chars, head?_cons] at first
  exact Option.some.inj first ▸ ascii

theorem ordinaryNames_of_keys (once : (attrs.map Prod.fst).Nodup)
    (keys : ∀ key ∈ attrs.map Prod.fst, key ∈ ["class", "style", "title"]) : OrdinaryNames attrs := by
  have known : ∀ key ∈ ["class", "style", "title"], key.toList ≠ [] ∧ key.toList.all Piece.isNameChar = true := by
    decide
  refine ⟨fun entry mem => ?_, once⟩
  obtain ⟨some, readable⟩ := known entry.1 (keys entry.1 (mem_map_of_mem mem))
  exact ⟨some, all_eq_true.mp readable⟩

theorem keys_server (card : Card) : (serverAttributes card).map Prod.fst =
    ((classText (classNames card)).toList.map fun _ => "class") ++ card.tone.toList.map fun _ => "style" := by
  simp [serverAttributes, Function.comp_def]

theorem ordinaryNames_server (card : Card) : OrdinaryNames (serverAttributes card) := by
  refine ordinaryNames_of_keys ?_ ?_ <;> rw [keys_server] <;>
    cases classText (classNames card) <;> cases card.tone <;> simp

theorem readable_frameTree {closed : Bool} {headingAttributes : Attributes} {title count : String}
    (names : OrdinaryNames attrs) (headingNames : OrdinaryNames headingAttributes) (legibleTitle : Legible title)
    (legibleCount : Legible count) (legibleItems : ∀ item ∈ items, Legible item) :
    Tree.ReadableAll OrdinaryNames false [frameTree closed attrs headingAttributes title count items] := by
  have div : OrdinaryTag "div" := by decide
  have h1 : OrdinaryTag "h1" := by decide
  have p : OrdinaryTag "p" := by decide
  have button : OrdinaryTag "button" := by decide
  have ul : OrdinaryTag "ul" := by decide
  have none : OrdinaryNames [] := ⟨by simp, by simp⟩
  refine ⟨readable_element div names ?_, by simp [frameTree, Tree.isText], trivial⟩
  refine ⟨readable_element h1 headingNames (readableAll_lineTrees legibleTitle closed), by simp [Tree.isText],
    readable_element p none ⟨⟨'C', _, rfl, by decide⟩, by simp [Tree.isText], readable_regionStart, by simp [Tree.isText],
      readableAll_lineTrees legibleCount closed⟩, by simp [Tree.isText],
    readable_element button none ⟨⟨'+', _, rfl, by decide⟩, by simp, trivial⟩, by simp [Tree.isText],
    readable_element ul none (readableAll_items legibleItems closed), by simp [Tree.isText], trivial⟩

theorem read_markup {card : Card} (title : Legible card.title) (items : ∀ item ∈ card.items, Legible item) :
    Markup.read card.markup = ⟨[serverTree card], true⟩ := by
  have titleNames : OrdinaryNames [("title", card.title)] := ordinaryNames_of_keys (by simp) (by simp)
  exact Markup.read_written escaping_allMarks (by decide) (by decide)
    (readable_frameTree (ordinaryNames_server card) titleNames title (legible_toString card.count) items) (markup_chars card)

end Server

end LiveMarkup.Card
