import LiveMarkup.Proofs.Refusals
import Mathlib.Algebra.Order.Ring.Nat

/-!
The code that is embedded in a template. The pieces of code stand in the text of the template one behind the other, so that
none is read twice.
-/

namespace LiveMarkup.Template
open Text List Template.Tree Grammar

section Stringing

variable {texts others : List (List Char)} {cs a b : List Char}

inductive Strung : List (List Char) → List Char → Prop
  | nil (cs : List Char) : Strung [] cs
  | cons (front text : List Char) {others : List (List Char)} {behind : List Char} (later : Strung others behind) :
      Strung (text :: others) (front ++ text ++ behind)

theorem Strung.prepend (strung : Strung texts cs) (a : List Char) : Strung texts (a ++ cs) := by
  cases strung with
  | nil => exact .nil _
  | cons front text later => simpa using Strung.cons (a ++ front) text later

theorem Strung.append (one : Strung texts a) (two : Strung others b) : Strung (texts ++ others) (a ++ b) := by
  induction one with
  | nil cs => exact two.prepend cs
  | cons front text _ ih => simpa using Strung.cons front text ih

theorem strung_singleton (front text behind : List Char) : Strung [text] (front ++ text ++ behind) := .cons front text (.nil behind)

theorem Strung.infix (strung : Strung texts cs) : ∀ text ∈ texts, text <:+: cs := by
  induction strung with
  | nil => exact nofun
  | @cons front _ _ behind _ ih =>
    intro other mem
    rcases mem_cons.mp mem with rfl | mem
    · exact ⟨front, behind, rfl⟩
    · exact (ih other mem).trans (suffix_append _ _).isInfix

theorem strung_append_iff : Strung (texts ++ others) cs ↔ ∃ a b, cs = a ++ b ∧ Strung texts a ∧ Strung others b := by
  constructor
  · intro strung
    induction texts generalizing cs with
    | nil => exact ⟨[], cs, rfl, .nil [], strung⟩
    | cons text _ ih =>
      cases strung with
      | cons front text later =>
        obtain ⟨a, b, rfl, one, two⟩ := ih later
        exact ⟨front ++ text ++ a, b, by simp, .cons front text one, two⟩
  · rintro ⟨_, _, rfl, one, two⟩
    exact one.append two

def Inside (few all : List (List Char)) : Prop := ∀ cs, Strung all cs → Strung few cs

variable {few all : List (List Char)}

theorem inside_self : Inside all all := fun _ strung => strung

theorem inside_nil : Inside [] all := fun cs _ => .nil cs

theorem Inside.append (one : Inside few texts) (two : Inside all others) : Inside (few ++ all) (texts ++ others) := by
  intro cs strung
  obtain ⟨a, b, rfl, first, second⟩ := strung_append_iff.mp strung
  exact (one a first).append (two b second)

theorem inside_infix (stands : a <:+: b) : Inside [a] [b] := by
  intro cs strung
  obtain ⟨x, y, rfl⟩ := stands
  cases strung with
  | cons front => simpa using strung_singleton (front ++ x) a (y ++ _)

end Stringing

def Attribute.code? : Attribute → Option String
  | .spread code _ => some code
  | .named _ (some (.expression code)) _ => some code
  | .named _ _ _ => none

mutual

def Tree.codes : Tree → List String
  | .text _ _ => []
  | .expression code _ => [code]
  | .fragment children _ => codesAll children
  | .element _ attributes children _ _ => attributes.filterMap Attribute.code? ++ codesAll children

def Tree.codesAll : List Tree → List String
  | [] => []
  | tree :: rest => tree.codes ++ codesAll rest

end

def WrittenAttribute.codes : WrittenAttribute → List (List Char)
  | .braced _ code _ => [code.toList]
  | .spread code _ => [code.toList]
  | _ => []

mutual

def Written.codes : Written → List (List Char)
  | .text _ _ => []
  | .expression code _ => [code.toList]
  | .fragment children _ => codesAll children
  | .selfClosed _ attributes _ => attributes.flatMap WrittenAttribute.codes
  | .element _ attributes children _ _ _ => attributes.flatMap WrittenAttribute.codes ++ codesAll children

def Written.codesAll : List Written → List (List Char)
  | [] => []
  | written :: rest => written.codes ++ codesAll rest

end

section Reading

variable {α : Type} {source : List Char} {i j k : Nat} {texts more : List (List Char)}

def Between (source : List Char) (i : Nat) (texts : List (List Char)) (j : Nat) : Prop :=
  ∃ passed, source.drop i = passed ++ source.drop j ∧ Strung texts passed

theorem between_self : Between source i [] i := ⟨[], rfl, .nil []⟩

theorem Between.trans (one : Between source i texts j) (two : Between source j more k) : Between source i (texts ++ more) k := by
  obtain ⟨front, passed, first⟩ := one
  obtain ⟨back, later, second⟩ := two
  exact ⟨front ++ back, by rw [passed, later, append_assoc], first.append second⟩

theorem between_skip {front : List Char} (passed : source.drop i = front ++ source.drop j) : Between source i [] j :=
  ⟨front, passed, .nil front⟩

namespace Parser

abbrev ReadsTexts (source : List Char) (i : Nat) (parser : Parser α) (texts : α → List (List Char)) : Prop :=
  Reads source i parser fun value j => Between source i (texts value) j

theorem ReadsTexts.many {item : Parser α} {texts : α → List (List Char)} (reads : ∀ i, ReadsTexts source i item texts) (fuel : Nat) :
    ReadsTexts source i (many item fuel) (flatMap texts) := by
  induction fuel generalizing i with
  | zero => exact reads_pure between_self
  | succ _ ih =>
    refine Reads.orElse ?_ (reads_pure between_self)
    exact (reads i).bind fun first j one => ih.bind fun others k rest => reads_pure (one.trans rest)

theorem skips_spaces : ReadsTexts source i spaces fun _ => [] :=
  reads_spaces.mono fun _ _ ⟨_, passed, _⟩ => between_skip passed

theorem skips_position : ReadsTexts source i position fun _ => [] :=
  reads_position.mono fun _ _ found => found.1 ▸ between_self

theorem skips_rest : ReadsTexts source i rest fun _ => [] := reads_rest.mono fun _ _ found => found.1 ▸ between_self

theorem skips_get : ReadsTexts source i get fun _ => [] := reads_get.mono fun _ _ found => found.1 ▸ between_self

theorem skips_literal (text : String) : ReadsTexts source i (literal text) fun _ => [] :=
  (reads_literal text).mono fun _ _ => between_skip

theorem skips_name : ReadsTexts source i name fun _ => [] := reads_name.mono fun _ _ => between_skip

theorem skips_tagName : ReadsTexts source i tagName fun _ => [] := Reads.construct skips_name .tagName

theorem skips_attributeName : ReadsTexts source i (construct .attributeName name) fun _ => [] := Reads.construct skips_name .attributeName

theorem skips_whileChars (p : Char → Bool) : ReadsTexts source i (whileChars p) fun _ => [] :=
  (reads_whileChars p).mono fun _ _ found => between_skip found.1

theorem readsTexts_codeToClose : ReadsTexts source i codeToClose fun code => [code.toList] := by
  refine reads_codeToClose.mono fun code j passed => ⟨code.toList ++ ['\x7d'], ?_, strung_singleton [] code.toList _⟩
  rw [passed, append_assoc]
  rfl

theorem ReadsTexts.behind {α β : Type} {first : Parser α} {next : α → Parser β} {texts : β → List (List Char)}
    (skips : ReadsTexts source i first fun _ => []) (reads : ∀ value j, ReadsTexts source j (next value) texts) :
    ReadsTexts source i (first >>= next) texts :=
  skips.bind fun value _ passed => (reads value _).mono fun _ _ kept => passed.trans kept

theorem ReadsTexts.keep {α β : Type} {first : Parser α} {next : α → Parser β} {texts : α → List (List Char)} {all : β → List (List Char)}
    (reads : ReadsTexts source i first texts)
    (skips : ∀ value j, Reads source j (next value) fun result k => Between source j [] k ∧ all result = texts value) :
    ReadsTexts source i (first >>= next) all :=
  reads.bind fun value j kept => (skips value j).mono fun result k passed => by
    simpa [passed.2] using kept.trans passed.1

theorem skips_pure {value : α} {good : α → Prop} (holds : good value) :
    Reads source i (pure value) fun result k => Between source i [] k ∧ good result :=
  reads_pure ⟨between_self, holds⟩

theorem skips_finish {β : Type} {f : Span → β} {start : Position} {good : β → Prop} (holds : ∀ span, good (f span)) :
    Reads source i (do return f ((← get).spanFrom start)) fun result k => Between source i [] k ∧ good result :=
  reads_get.bind fun _ _ found => found.1 ▸ skips_pure (holds _)

theorem Skips.before {β γ : Type} {first : Parser β} {next : β → Parser γ} {good : γ → Prop}
    (skips : ReadsTexts source i first fun _ => [])
    (later : ∀ value j, Reads source j (next value) fun result k => Between source j [] k ∧ good result) :
    Reads source i (first >>= next) fun result k => Between source i [] k ∧ good result :=
  skips.bind fun value _ passed => (later value _).mono fun _ _ found => ⟨passed.trans found.1, found.2⟩

end Parser

end Reading

section Grammar

open Template.Parser

variable {source : List Char} {i : Nat}

theorem readsTexts_expression : ReadsTexts source i expression Written.codes := by
  refine Reads.construct ?_ .expression
  refine skips_position.behind fun start _ => (skips_literal _).behind fun _ _ => ?_
  exact readsTexts_codeToClose.keep fun code _ => skips_finish fun _ => rfl

theorem readsTexts_text : ReadsTexts source i text Written.codes := by
  refine Reads.construct ?_ .text
  refine skips_position.behind fun start _ => (skips_whileChars _).behind fun raw _ => ?_
  split
  · exact reads_failure
  · exact skips_get.behind fun _ _ => reads_pure between_self

theorem readsTexts_spreadAttribute : ReadsTexts source i spreadAttribute WrittenAttribute.codes := by
  refine Reads.construct ?_ .spreadAttribute
  refine skips_position.behind fun start _ => (skips_literal _).behind fun _ _ => skips_spaces.behind fun _ _ => ?_
  refine (skips_literal _).behind fun _ _ => ?_
  exact readsTexts_codeToClose.keep fun code _ => skips_finish fun _ => rfl

theorem readsTexts_attributeValue : Reads source i attributeValue fun make j => ∃ texts, Between source i texts j ∧
    ∀ name span, (make name span).codes = texts := by
  refine skips_spaces.bind fun _ a first => (skips_literal "=").bind fun _ b sign => skips_spaces.bind fun _ c second => ?_
  have before {texts : List (List Char)} {j : Nat} (kept : Between source c texts j) : Between source i texts j :=
    first.trans (sign.trans (second.trans kept))
  refine Reads.orElse ?_ ?_
  · have quoted : ReadsTexts source c attributeString fun _ => [] := by
      refine Reads.construct (skips_rest.behind fun cs d => ?_) .attributeString
      have between (quote : String) (p : Char → Bool) : ReadsTexts source d (do
          literal quote
          let text ← whileChars p
          literal quote
          return text) fun _ => [] :=
        (skips_literal _).behind fun _ _ => (skips_whileChars _).behind fun _ _ => (skips_literal _).behind fun _ _ =>
          reads_pure between_self
      split
      · exact between _ _
      · exact between _ _
      · exact reads_failure
    exact quoted.bind fun text d passed => reads_pure ⟨[], before passed, fun _ _ => rfl⟩
  · have code : ReadsTexts source c attributeExpression fun code => [code.toList] :=
      Reads.construct ((skips_literal _).behind fun _ _ => readsTexts_codeToClose) .attributeExpression
    exact code.bind fun code d kept => reads_pure ⟨[code.toList], before kept, fun _ _ => rfl⟩

theorem readsTexts_namedAttribute : ReadsTexts source i namedAttribute WrittenAttribute.codes := by
  refine Reads.construct ?_ .namedAttribute
  refine skips_position.behind fun start _ => skips_attributeName.behind fun name b => ?_
  have flag : Reads source b (pure fun name span => .flag name span) fun (make : String → Span → WrittenAttribute) j =>
      ∃ texts, Between source b texts j ∧ ∀ name span, (make name span).codes = texts :=
    reads_pure ⟨[], between_self, fun _ _ => rfl⟩
  refine (readsTexts_attributeValue.orElse flag).bind fun make c found => ?_
  obtain ⟨_, _, same⟩ := found
  refine reads_get.bind fun cursor d found => reads_pure ?_
  rwa [same, found.1]

theorem readsTexts_attributeItem : ReadsTexts source i attributeItem WrittenAttribute.codes :=
  skips_spaces.behind fun _ _ => readsTexts_spreadAttribute.orElse readsTexts_namedAttribute

theorem skips_closeTag : ReadsTexts source i closeTag fun _ => [] := by
  refine Reads.construct ?_ .closeTag
  refine skips_position.behind fun _ _ => (skips_literal _).behind fun _ _ => skips_tagName.behind fun _ _ => ?_
  exact skips_spaces.behind fun _ _ => (skips_literal _).behind fun _ _ => skips_get.behind fun _ _ => reads_pure between_self

theorem readsTexts_node {fuel : Nat} (inner : ∀ i, ReadsTexts source i (nodes fuel) Written.codesAll) :
    ReadsTexts source i (node (nodes fuel)) Written.codes := by
  have fragment : ReadsTexts source i (fragment (nodes fuel)) Written.codes := by
    refine Reads.construct ?_ (.fragment fuel)
    refine skips_position.behind fun start _ => (skips_literal _).behind fun _ _ => ?_
    exact (inner _).keep fun children _ => Skips.before (skips_literal _) fun _ _ => skips_finish fun _ => rfl
  have element : ReadsTexts source i (element (nodes fuel)) Written.codes := by
    refine Reads.construct ?_ (.element fuel)
    refine skips_position.behind fun start _ => (skips_literal _).behind fun _ _ => ?_
    refine skips_tagName.behind fun tag _ => skips_rest.behind fun _ a => ?_
    refine (ReadsTexts.many (fun _ => readsTexts_attributeItem) _).bind fun attrs b entries => ?_
    refine skips_spaces.bind fun _ c blanks => Reads.orElse ?_ ?_
    · refine (Reads.construct (skips_literal _) .selfClose).bind fun _ d passed => reads_get.bind fun _ e found => reads_pure ?_
      rw [found.1]
      simpa [Written.codes] using (entries.trans blanks).trans passed
    · refine (skips_literal _).bind fun _ d sign => (inner d).bind fun children e below => ?_
      refine skips_closeTag.bind fun closed f passed => reads_get.bind fun _ g found => reads_pure ?_
      rw [found.1]
      simpa [Written.codes] using (((entries.trans blanks).trans sign).trans below).trans passed
  exact fragment.orElse (element.orElse (readsTexts_expression.orElse readsTexts_text))

theorem readsTexts_nodes (fuel : Nat) : ReadsTexts source i (nodes fuel) Written.codesAll := by
  induction fuel generalizing i with
  | zero => exact reads_pure between_self
  | succ _ ih =>
    refine Reads.orElse ?_ (reads_pure between_self)
    exact (readsTexts_node fun _ => ih).bind fun first _ one => ih.bind fun others _ rest => reads_pure (one.trans rest)

theorem readsTexts_content : ReadsTexts source i content Written.codesAll :=
  skips_rest.behind fun _ _ => readsTexts_nodes _

theorem reads_braces : Reads source 0 viewBlock fun roots j => ∃ inner,
    source = '\x7b' :: inner ++ '\x7d' :: source.drop j ∧ Strung (Written.codesAll roots) inner := by
  refine Reads.construct ?_ .viewBlock
  refine (reads_literal _).bind fun _ j opening => readsTexts_content.bind fun roots k content => ?_
  refine (reads_literal _).bind fun _ l closing => reads_pure ?_
  obtain ⟨inner, passed, strung⟩ := content
  refine ⟨inner, ?_, strung⟩
  rw [drop_zero, passed, closing] at opening
  simpa using opening

end Grammar

theorem trim_infix (cs : List Char) : trim cs <:+: cs := by
  have front : trimEnd (trimStart cs) <+: trimStart cs := by
    rw [← reverse_suffix, trimEnd, reverse_reverse]
    exact dropWhile_suffix isBlank
  exact front.isInfix.trans (dropWhile_suffix isBlank).isInfix

theorem Tree.codesAll_append (one two : List Tree) : codesAll (one ++ two) = codesAll one ++ codesAll two := by
  induction one with
  | nil => rfl
  | cons _ _ ih => rw [cons_append, codesAll, codesAll, ih, append_assoc]

def Tree.texts (trees : List Tree) : List (List Char) := (codesAll trees).map String.toList

theorem inside_trimCode (code : String) : Inside [(trimCode code).toList] [code.toList] := by
  refine inside_infix ?_
  rw [trimCode, trimmed, String.toList_ofList]
  exact trim_infix _

theorem inside_attributes (attrs : List WrittenAttribute) :
    Inside (((attrs.map WrittenAttribute.toAttribute).filterMap Attribute.code?).map String.toList)
      (attrs.flatMap WrittenAttribute.codes) := by
  induction attrs with
  | nil => exact inside_self
  | cons entry _ ih =>
    cases entry with
    | flag => exact ih
    | quoted => exact ih
    | braced _ code | spread code => exact (inside_trimCode code).append ih

mutual

theorem inside_toTree? {written : Written} {tree : Option Tree} (made : written.toTree? = .ok tree) :
    Inside (texts tree.toList) written.codes := by
  match written with
  | .text raw _ =>
    rw [Written.toTree?] at made
    obtain rfl := Except.ok.inj made
    cases normalizeText raw.toList <;> exact inside_self
  | .expression code _ =>
    rw [Written.toTree?] at made
    obtain rfl := Except.ok.inj made
    split
    · exact inside_nil
    · simpa [texts, codesAll, codes, Written.codes] using inside_trimCode code
  | .fragment _ _ =>
    rw [Written.toTree?] at made
    obtain ⟨_, below, rest⟩ := bind_eq_ok made
    obtain rfl := Except.ok.inj rest
    simpa [texts, codesAll, codes, Written.codes] using inside_toTrees below
  | .selfClosed _ attrs _ =>
    rw [Written.toTree?] at made
    obtain rfl := Except.ok.inj made
    simpa [texts, codesAll, codes, Written.codes] using inside_attributes attrs
  | .element _ attrs _ _ _ _ =>
    rw [Written.toTree?] at made
    obtain ⟨_, below, rest⟩ := bind_eq_ok made
    split at rest
    · obtain rfl := Except.ok.inj rest
      simpa [texts, codesAll, codes, Written.codes] using (inside_attributes attrs).append (inside_toTrees below)
    · cases rest

theorem inside_toTrees {written : List Written} {trees : List Tree} (made : toTrees written = .ok trees) :
    Inside (texts trees) (Written.codesAll written) := by
  match written with
  | [] =>
    rw [toTrees] at made
    obtain rfl := Except.ok.inj made
    exact inside_self
  | first :: rest =>
    rw [toTrees] at made
    obtain ⟨_, one, made⟩ := bind_eq_ok made
    obtain ⟨_, two, made⟩ := bind_eq_ok made
    obtain rfl := Except.ok.inj made
    rw [texts, codesAll_append, map_append]
    exact (inside_toTree? one).append (inside_toTrees two)

end

theorem codes_mapText (tree : Tree) (f : String → String) : (tree.mapText f).codes = tree.codes := by
  cases tree <;> simp [mapText, codes]

theorem codesAll_mapLast {f : Tree → Tree} (same : ∀ tree, (f tree).codes = tree.codes) (trees : List Tree) :
    codesAll (mapLast f trees) = codesAll trees := by
  fun_induction mapLast f trees with
  | case1 => rfl
  | case2 => simp only [codesAll, same]
  | case3 _ _ _ ih => rw [codesAll, codesAll, ih]

theorem codesAll_trimRoots (roots : List Tree) : codesAll (trimRoots roots) = codesAll roots := by
  have kept : codesAll (roots.filter (!·.isBlankText)) = codesAll roots := by
    induction roots with
    | nil => rfl
    | cons tree _ ih =>
      rw [filter_cons, codesAll, ← ih]
      split
      · rfl
      · rename_i blank
        cases tree <;> simp [isBlankText, codes] at blank ⊢
  rw [← kept]
  unfold trimRoots
  split
  · rename_i none
    rw [none]
  · rename_i first rest found
    rw [codesAll_mapLast fun tree => codes_mapText tree _, found, codesAll, codesAll, codes_mapText]

theorem strung_parseBlock {cs : List Char} {roots : List Tree} {bytes : Nat} (read : parseBlock (String.ofList cs) = .ok (roots, bytes)) :
    ∃ inner behind, cs = '\x7b' :: inner ++ '\x7d' :: behind ∧ bytes = String.utf8Len ('\x7b' :: inner ++ ['\x7d']) ∧
      Strung (texts roots) inner := by
  have start : cursorAt cs 0 = .ofText (String.ofList cs) := by
    rw [Cursor.ofText, String.toList_ofList]
    rfl
  have gives := (@reads_braces cs {} ⟨0, rfl, forall_mem_nil _⟩).2
  rw [start] at gives
  unfold parseBlock Parser.parse at read
  rcases ran : viewBlock (.ofText (String.ofList cs)) {} with ⟨_ | ⟨written, cursor⟩, attempts⟩
  · rw [ran] at read
    dsimp only at read
    split at read <;> cases read
  · rw [ran] at read gives
    obtain ⟨j, rfl, inner, whole, strung⟩ := gives written cursor rfl
    obtain ⟨_, made, rest⟩ := bind_eq_ok read
    obtain ⟨rfl, rfl⟩ := Prod.mk.inj (Except.ok.inj rest)
    refine ⟨inner, cs.drop j, whole, ?_, ?_⟩
    · have taken : cs.take j = '\x7b' :: inner ++ ['\x7d'] := by
        have both : cs.take j ++ cs.drop j = ('\x7b' :: inner ++ ['\x7d']) ++ cs.drop j := by
          rw [take_append_drop, append_assoc]
          exact whole
        exact append_cancel_right both
      show (placeAt cs j).offset = _
      rw [placeAt, Position.offset_pastAll, taken]
      exact Nat.zero_add _
    · rw [texts, codesAll_trimRoots]
      exact inside_toTrees made inner strung

end LiveMarkup.Template
