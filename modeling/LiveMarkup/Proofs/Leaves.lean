import LiveMarkup.Expression.Lexer
import LiveMarkup.Proofs.Literals

/-!
Names, punctuation and literals in front of other text: what a text begins with is one of them only, and it stays the same
whatever stands behind the next blank, bracket, comma or semicolon.
-/

namespace LiveMarkup.Expression
open Text List Option Prod

namespace Lexer

variable {a b t : List Char} {text : String}

theorem startsWith_append (other : text.toList.all (!stops.contains ·) = true) (w : List Char) (stopped : Stopped t) :
    startsWith text (w ++ t) = startsWith text w := by
  unfold startsWith
  generalize text.toList = cs at other
  induction cs generalizing w with
  | nil => rfl
  | cons c _ ih =>
    rw [all_cons, Bool.and_eq_true] at other
    cases w with
    | nil =>
      obtain rfl | ⟨d, _, rfl, stop⟩ := stopped.cases
      · rfl
      · have apart : c ≠ d := fun same => by
          rw [same, contains_iff_mem.mpr stop] at other
          exact absurd other.1 (by decide)
        simp [isPrefixOf, apart]
    | cons _ w => simp only [cons_append, isPrefixOf, ih w other.2]

theorem startsWith_similar (other : text.toList.all (!stops.contains ·) = true) (similar : Similar a b) :
    startsWith text a = startsWith text b := by
  obtain ⟨same, _, _, rfl, rfl, one, two⟩ := similar
  rw [startsWith_append other same one, startsWith_append other same two]

theorem startsWith_of_le {u : List Char} (le : text.length ≤ u.length) (more : List Char) :
    startsWith text (u ++ more) = startsWith text u := by
  rw [← String.length_toList] at le
  rw [startsWith, startsWith, Bool.eq_iff_iff, isPrefixOf_iff_prefix, isPrefixOf_iff_prefix]
  exact ⟨fun begins => prefix_of_prefix_length_le begins (prefix_append u more) le,
    fun begins => begins.trans (prefix_append u more)⟩

theorem isPunct_cons (c : Char) (similar : Similar a b) : isPunct (c :: a) = isPunct (c :: b) := by
  have longer := similar.append_left [c]
  have line : startsWith "//" (c :: a) = startsWith "//" (c :: b) := startsWith_similar (by decide) longer
  have block : startsWith "/*" (c :: a) = startsWith "/*" (c :: b) := startsWith_similar (by decide) longer
  rw [isPunct, isPunct, line, block]
  rfl

section Leaves

variable {cs rest : List Char} {name : String} {token : Token} {value : Literal} {c : Char}

theorem local_of_append {α : Type} {reader : List Char → Option (α × List Char)}
    (append : ∀ w t, Stopped t → reader (w ++ t) = (reader w).map fun (a, rest) => (a, rest ++ t))
    (suffix : ∀ {cs a rest}, reader cs = some (a, rest) → rest <:+ cs) {a : α} (found : reader cs = some (a, rest)) :
    ∃ u, cs = u ++ rest ∧ ∀ more, Similar rest more → reader (u ++ more) = some (a, more) := by
  obtain ⟨u, rfl⟩ := suffix found
  refine ⟨u, rfl, ?_⟩
  rintro - ⟨same, s, t, rfl, rfl, one, two⟩
  have short : reader (u ++ same) = some (a, same) := by
    rw [← append_assoc, append _ s one] at found
    obtain ⟨⟨_, _⟩, taken, equal⟩ := map_eq_some_iff.mp found
    obtain ⟨rfl, ends⟩ := mk.inj equal
    rw [taken, append_cancel_right ends]
  rw [← append_assoc, append _ t two, short]
  rfl

def word? (cs : List Char) : Option (List Char × List Char) :=
  match Number.suffix cs with
  | [] => none
  | name => some (name, cs.drop name.length)

theorem word?_append (w t : List Char) (stopped : Stopped t) :
    word? (w ++ t) = (word? w).map fun (name, rest) => (name, rest ++ t) := by
  rw [word?, word?, Number.suffix_append w stopped]
  split
  · rfl
  · rw [drop_append_of_le t (Number.suffix_length_le w)]
    rfl

theorem word?_suffix {name : List Char} (found : word? cs = some (name, rest)) : rest <:+ cs := by
  unfold word? at found
  split at found
  · cases found
  · obtain ⟨-, rfl⟩ := mk.inj (some.inj found)
    exact drop_suffix ..

theorem word?_start {name : List Char} (found : word? cs = some (name, rest)) : ∃ c w, cs = c :: w ∧ isIdentifierStart c = true := by
  unfold word? at found
  cases cs with
  | nil => cases found
  | cons c cs =>
    refine ⟨c, cs, rfl, ?_⟩
    by_contra other
    simp [Number.suffix, other] at found

theorem anyIdent?_raw (cs : List Char) : anyIdent? ('r' :: '#' :: cs) = (word? cs).bind fun (name, rest) =>
      if ["_", "super", "self", "Self", "crate"].contains (String.ofList name) then none
      else some ("r#" ++ String.ofList name, rest) := rfl

theorem anyIdent?_plain (other : ¬ ['r', '#'] <+: cs) :
    anyIdent? cs = (word? cs).map fun (name, rest) => (String.ofList name, rest) := by
  unfold anyIdent?
  split
  · exact absurd (prefix_append _ _) other
  · rfl

theorem raw_prefix_append (w t : List Char) (stopped : Stopped t) : ['r', '#'] <+: w ++ t ↔ ['r', '#'] <+: w := by
  have same : startsWith "r#" (w ++ t) = startsWith "r#" w := startsWith_append (by decide) w stopped
  rwa [startsWith, startsWith, Bool.eq_iff_iff, isPrefixOf_iff_prefix, isPrefixOf_iff_prefix] at same

theorem anyIdent?_append (w t : List Char) (stopped : Stopped t) :
    anyIdent? (w ++ t) = (anyIdent? w).map fun (name, rest) => (name, rest ++ t) := by
  by_cases raw : ['r', '#'] <+: w
  · obtain ⟨w, rfl⟩ := raw
    show anyIdent? ('r' :: '#' :: (w ++ t)) = (anyIdent? ('r' :: '#' :: w)).map _
    rw [anyIdent?_raw, anyIdent?_raw, word?_append w t stopped]
    cases word? w with
    | none => rfl
    | some =>
      simp only [map_some, bind_some]
      split <;> rfl
  · rw [anyIdent?_plain raw, anyIdent?_plain fun begins => raw ((raw_prefix_append w t stopped).mp begins), word?_append w t stopped]
    cases word? w <;> rfl

/-- What a word is taken from is the spelling of the identifier: the raw mark if it has one, and its letters. -/
theorem anyIdent?_spelled (found : anyIdent? cs = some (name, rest)) : ∃ mark ∈ ["", "r#"], ∃ letters body,
    cs = mark.toList ++ body ∧ word? body = some (letters, rest) ∧ name = mark ++ String.ofList letters := by
  by_cases raw : ['r', '#'] <+: cs
  · obtain ⟨body, rfl⟩ := raw
    obtain ⟨⟨letters, _⟩, word, found⟩ := bind_eq_some_iff.mp found
    obtain ⟨rfl, rfl⟩ := mk.inj (some.inj (ite_none_left_eq_some.mp found).2)
    exact ⟨"r#", by simp, letters, body, rfl, word, rfl⟩
  · rw [anyIdent?_plain raw] at found
    obtain ⟨⟨letters, _⟩, word, same⟩ := map_eq_some_iff.mp found
    obtain ⟨rfl, rfl⟩ := mk.inj same
    exact ⟨"", by simp, letters, cs, rfl, word, String.empty_append.symm⟩

theorem anyIdent?_suffix (found : anyIdent? cs = some (name, rest)) : rest <:+ cs := by
  obtain ⟨_, -, _, _, rfl, word, -⟩ := anyIdent?_spelled found
  exact (word?_suffix word).trans (suffix_append ..)

theorem word?_shorter {name : List Char} (found : word? cs = some (name, rest)) : rest.length < cs.length := by
  unfold word? at found
  split at found
  · cases found
  · rename_i solid
    obtain ⟨-, rfl⟩ := mk.inj (some.inj found)
    have some := length_pos_iff.mpr solid
    have le := Number.suffix_length_le cs
    rw [length_drop]
    omega

theorem anyIdent?_shorter (found : anyIdent? cs = some (name, rest)) : cs ≠ rest := by
  obtain ⟨mark, -, _, body, rfl, word, -⟩ := anyIdent?_spelled found
  intro same
  have shorter := (word?_shorter word).trans_le (suffix_append mark.toList body).length_le
  rw [same] at shorter
  exact absurd shorter (lt_irrefl _)

theorem anyIdent?_start (found : anyIdent? cs = some (name, rest)) : ∃ c w, cs = c :: w ∧ isIdentifierStart c = true := by
  obtain ⟨mark, known, _, _, rfl, word, -⟩ := anyIdent?_spelled found
  obtain rfl | rfl : mark = "" ∨ mark = "r#" := by simpa using known
  · exact word?_start word
  · exact ⟨'r', _, rfl, by decide⟩

theorem ident?_append (w t : List Char) (stopped : Stopped t) :
    ident? (w ++ t) = (ident? w).map fun (name, rest) => (name, rest ++ t) := by
  have marks : ["r\"", "r#\"", "r##", "b\"", "b'", "br\"", "br#", "c\"", "cr\"", "cr#"].any (startsWith · (w ++ t)) =
      ["r\"", "r#\"", "r##", "b\"", "b'", "br\"", "br#", "c\"", "cr\"", "cr#"].any (startsWith · w) := by
    simp only [any_cons, any_nil]
    repeat rw [startsWith_append (by decide) w stopped]
  rw [ident?, ident?, marks, anyIdent?_append w t stopped]
  split <;> rfl

theorem quotation_none (other : c ∉ ['"', 'r', 'b', 'c', '\'']) (cs : List Char) : Quotation.read? (c :: cs) = none := by
  rw [Quotation.read?]
  unfold Quotation.bare?
  split <;> simp_all

section

variable (found : Number.read? cs = some (value, rest))
include found

theorem number_start : ∃ c w, cs = c :: w ∧ c.isDigit = true := by
  have head : (cs.head?.map Char.isDigit).getD false = true := by
    obtain found | ⟨-, found⟩ := or_eq_some_iff.mp found
    · obtain ⟨_, length, -⟩ := bind_eq_some_iff.mp found
      rw [Number.floatLength?] at length
      exact (ite_none_right_eq_some.mp length).1
    · rw [Number.integer?] at found
      exact (ite_none_right_eq_some.mp found).1
  cases cs with
  | nil => cases head
  | cons c w => exact ⟨c, w, rfl, head⟩

theorem number_shorter : cs ≠ rest := by
  rintro rfl
  have broken : Number.breaks cs = true := by
    obtain found | ⟨-, found⟩ := or_eq_some_iff.mp found
    · obtain ⟨_, -, found⟩ := bind_eq_some_iff.mp found
      obtain ⟨broken, found⟩ := ite_none_right_eq_some.mp found
      rwa [(mk.inj (some.inj found)).2] at broken
    · rw [Number.integer?] at found
      obtain ⟨⟨_, _⟩, -, found⟩ := bind_eq_some_iff.mp (ite_none_right_eq_some.mp found).2
      obtain ⟨broken, found⟩ := ite_none_right_eq_some.mp found
      rwa [(mk.inj (some.inj found)).2] at broken
  obtain ⟨_, _, rfl, digit⟩ := number_start found
  simp [Number.breaks, isIdentifierPart, digit] at broken

theorem quotation_of_number : Quotation.read? cs = none := by
  obtain ⟨c, w, rfl, digit⟩ := number_start found
  refine quotation_none (fun mark => ?_) w
  have none : ['"', 'r', 'b', 'c', '\''].all (!·.isDigit) = true := by decide
  simpa [digit] using all_eq_true.mp none c mark

end

theorem punct_start (found : punct? cs = some (token, rest)) : ∃ c, cs = c :: rest ∧ isPunct (c :: rest) = true := by
  cases cs with
  | nil => cases found
  | cons c w =>
    rw [punct?] at found
    obtain ⟨punct, found⟩ := ite_none_left_eq_some.mp found
    have same : w = rest := by
      split at found
      · obtain ⟨⟨_, _⟩, -, found⟩ := bind_eq_some_iff.mp found
        obtain ⟨-, found⟩ := ite_none_left_eq_some.mp found
        exact (mk.inj (some.inj found)).2
      · exact (mk.inj (some.inj found)).2
    rw [same] at punct
    exact ⟨c, by rw [same], by simpa using punct⟩

theorem punctuation_of_isPunct (punct : isPunct (c :: cs) = true) : c ∈ punctuation := by
  simp only [isPunct, Bool.and_eq_true] at punct
  simpa using punct.2

theorem quotation_of_punct (found : punct? cs = some (token, rest)) : Quotation.read? cs = none := by
  obtain ⟨c, rfl, punct⟩ := punct_start found
  by_cases quote : c = '\''
  · subst quote
    rw [punct?] at found
    obtain ⟨⟨name, _⟩, ident, found⟩ := bind_eq_some_iff.mp (ite_none_left_eq_some.mp found).2
    obtain ⟨apart, -⟩ := ite_none_left_eq_some.mp found
    obtain ⟨d, w, rfl, start⟩ := anyIdent?_start ident
    have none : Quotation.char? .text (d :: w) = none := by
      have escape : d ≠ '\\' := by
        rintro rfl
        exact absurd start (by decide)
      cases w with
      | nil => exact Quotation.char?.eq_3 _ _ (fun _ same => escape (cons.inj same).1) (by simp)
      | cons _ w =>
        refine Quotation.char?.eq_3 _ _ (fun _ same => escape (cons.inj same).1) fun _ behind same => ?_
        obtain ⟨rfl, -⟩ := cons.inj (cons.inj same).2
        -- the name would be one character long, and the quote behind it
        have plain : ¬ ['r', '#'] <+: d :: '\'' :: w := by simp
        have short : Number.suffix (d :: '\'' :: w) = [d] := by
          have quote : isIdentifierPart '\'' = false := by decide
          simp [Number.suffix, start, quote]
        rw [anyIdent?_plain plain, word?, short] at ident
        obtain ⟨-, rfl⟩ := mk.inj (some.inj ident)
        exact apart (.inl rfl)
    rw [Quotation.read?]
    simp [Quotation.bare?, none]
  · refine quotation_none (fun mark => ?_) rest
    have none : punctuation.all (fun c => c == '\'' || !(['"', 'r', 'b', 'c', '\''].contains c)) = true := by decide
    have other := all_eq_true.mp none c (punctuation_of_isPunct punct)
    simp_all

theorem raw_start {kind : Quotation.Kind} {value : List Char} (found : Quotation.raw? kind cs = some (value, rest)) :
    ∃ n body, cs = replicate n '#' ++ '"' :: body := by
  rw [Quotation.raw?] at found
  split at found
  · rename_i body behind
    have all : ∀ c ∈ cs.takeWhile (· = '#'), c = '#' := by
      intro c mem
      simpa using all_eq_true.mp all_takeWhile c mem
    refine ⟨(cs.takeWhile (· = '#')).length, body, ?_⟩
    rw [← behind, ← eq_replicate_of_mem all]
    exact (prefix_iff_eq_append.mp ( takeWhile_prefix _)).symm
  · cases found

theorem quotation_of_ident (found : ident? cs = some (name, rest)) : Quotation.read? cs = none := by
  obtain ⟨marks, found⟩ := ite_none_left_eq_some.mp found
  obtain ⟨_, _, first, start⟩ := anyIdent?_start found
  cases read : Quotation.read? cs with
  | none => rfl
  | some result =>
    -- whatever would be read has one of the marks that an identifier may not begin with
    refine absurd ?_ marks
    rw [Quotation.read?] at read
    obtain ⟨⟨_, _⟩, bare, -⟩ := map_eq_some_iff.mp read
    have raw {kind : Quotation.Kind} {body : List Char} {result : List Char × List Char}
        (taken : Quotation.raw? kind body = some result) :
        ['"'] <+: body ∨ ['#', '"'] <+: body ∨ ['#', '#'] <+: body := by
      obtain ⟨n, _, rfl⟩ := raw_start taken
      rcases n with _ | _ | n
      · exact .inl (prefix_append _ _)
      · exact .inr (.inl (prefix_append _ _))
      · exact .inr (.inr (prefix_append ['#', '#'] _))
    have hash {body : List Char} (hashes : ['#', '"'] <+: body ∨ ['#', '#'] <+: body) : ['#'] <+: body :=
      hashes.elim ((prefix_append ['#'] ['"']).trans ·) ((prefix_append ['#'] ['#']).trans ·)
    unfold Quotation.bare? at bare
    dsimp only at bare
    split at bare
    case h_1 => exact absurd start (by rw [← (cons.inj first).1]; decide)
    case h_2 =>
      obtain ⟨_, taken, -⟩ := map_eq_some_iff.mp bare
      obtain quote | quote | quote := raw taken <;> simp [startsWith, quote]
    case h_3 => simp [startsWith]
    case h_4 =>
      obtain ⟨_, taken, -⟩ := map_eq_some_iff.mp bare
      obtain quote | hashes := raw taken
      · simp [startsWith, quote]
      · simp [startsWith, hash hashes]
    case h_5 => simp [startsWith]
    case h_6 => simp [startsWith]
    case h_7 =>
      obtain ⟨_, taken, -⟩ := map_eq_some_iff.mp bare
      obtain quote | hashes := raw taken
      · simp [startsWith, quote]
      · simp [startsWith, hash hashes]
    case h_8 => exact absurd start (by rw [← (cons.inj first).1]; decide)
    case h_9 => cases bare

theorem number_of_punct (found : punct? cs = some (token, rest)) : Number.read? cs = none := by
  obtain ⟨c, rfl, punct⟩ := punct_start found
  cases read : Number.read? (c :: rest) with
  | none => rfl
  | some =>
    obtain ⟨_, _, same, digit⟩ := number_start read
    have none : punctuation.all (!·.isDigit) = true := by decide
    have other := all_eq_true.mp none c (punctuation_of_isPunct punct)
    rw [(cons.inj same).1, digit] at other
    cases other

theorem ident?_start (found : ident? cs = some (name, rest)) : ∃ c w, cs = c :: w ∧ isIdentifierStart c = true :=
  anyIdent?_start (ite_none_left_eq_some.mp found).2

theorem not_digit_of_start (start : isIdentifierStart c = true) : c.isDigit = false := by
  rw [Bool.eq_false_iff]
  intro digit
  have range : 48 ≤ c.toNat ∧ c.toNat ≤ 57 := by
    simp only [Char.isDigit, Bool.and_eq_true, decide_eq_true_eq, ge_iff_le] at digit
    exact ⟨UInt32.le_iff_toNat_le.mp digit.1, UInt32.le_iff_toNat_le.mp digit.2⟩
  simp only [isIdentifierStart, Bool.or_eq_true, Bool.and_eq_true, beq_iff_eq] at start
  obtain (letter | rfl) | ⟨wide, -⟩ := start
  · have letter : (decide (c.val ≥ 'A'.val ∧ c.val ≤ 'Z'.val) ||
        (decide (c.val ≥ 'a'.val) && decide (c.val ≤ 'z'.val))) = true := letter
    simp only [Bool.or_eq_true, Bool.and_eq_true, decide_eq_true_eq, ge_iff_le] at letter
    obtain ⟨low, -⟩ | ⟨low, -⟩ := letter
    · have low : 65 ≤ c.toNat := UInt32.le_iff_toNat_le.mp low
      omega
    · have low : 97 ≤ c.toNat := UInt32.le_iff_toNat_le.mp low
      omega
  · exact absurd digit (by decide)
  · simp only [isAscii, Bool.not_eq_true', decide_eq_false_iff_not] at wide
    omega

theorem number_of_ident (found : ident? cs = some (name, rest)) : Number.read? cs = none := by
  obtain ⟨c, w, rfl, start⟩ := ident?_start found
  cases read : Number.read? (c :: w) with
  | none => rfl
  | some =>
    obtain ⟨_, _, same, digit⟩ := number_start read
    rw [← (cons.inj same).1, not_digit_of_start start] at digit
    cases digit

theorem punct_of_ident (found : ident? cs = some (name, rest)) : punct? cs = none := by
  obtain ⟨c, w, rfl, start⟩ := ident?_start found
  cases read : punct? (c :: w) with
  | none => rfl
  | some =>
    obtain ⟨_, same, punct⟩ := punct_start read
    have none : punctuation.all (!isIdentifierStart ·) = true := by decide
    have other := all_eq_true.mp none c (by
      rw [(cons.inj same).1]
      exact punctuation_of_isPunct punct)
    rw [start] at other
    cases other

theorem punct?_local (found : punct? cs = some (token, rest)) :
    ∃ c, cs = c :: rest ∧ ∀ more, Similar rest more → ∃ token, punct? (c :: more) = some (token, more) := by
  obtain ⟨c, rfl, punct⟩ := punct_start found
  refine ⟨c, rfl, fun more similar => ?_⟩
  have again : isPunct (c :: more) = true := by rw [← isPunct_cons c similar, punct]
  by_cases quote : c = '\''
  · subst quote
    rw [punct?] at found
    obtain ⟨⟨name, after⟩, ident, found⟩ := bind_eq_some_iff.mp (ite_none_left_eq_some.mp found).2
    obtain ⟨apart, -⟩ := ite_none_left_eq_some.mp found
    obtain ⟨same, s, t, rfl, rfl, one, two⟩ := similar
    rw [anyIdent?_append same s one] at ident
    obtain ⟨⟨_, after⟩, shorter, equal⟩ := map_eq_some_iff.mp ident
    obtain ⟨rfl, rfl⟩ := mk.inj equal
    have head {c : Char} (other : c ∉ stops) (first : (after ++ t).head? = some c) : (after ++ s).head? = some c := by
      cases after with
      | nil => exact absurd (two c first) other
      | cons => exact first
    have raw : startsWith "r#" (same ++ t) = startsWith "r#" (same ++ s) := by
      rw [startsWith_append (by decide) same one, startsWith_append (by decide) same two]
    have free : ¬ ((after ++ t).head? = some '\'' ∨ ((after ++ t).head? = some '#' ∧ !startsWith "r#" (same ++ t))) := by
      rintro (quote | ⟨hash, plain⟩)
      · exact apart (.inl (head (by decide) quote))
      · exact apart (.inr ⟨head (by decide) hash, raw ▸ plain⟩)
    refine ⟨.punct '\'' true, ?_⟩
    rw [punct?, again, anyIdent?_append same t two, shorter]
    simp only [Bool.not_true, Bool.false_eq_true, if_false, if_true, map_some, bind_some, free]
  · refine ⟨.punct c (isPunct more), ?_⟩
    simp [punct?, again, quote]

theorem ident?_local (found : ident? cs = some (name, rest)) :
    ∃ u, cs = u ++ rest ∧ ∀ more, Similar rest more → ident? (u ++ more) = some (name, more) :=
  local_of_append ident?_append (fun found => anyIdent?_suffix (ite_none_left_eq_some.mp found).2) found

theorem number?_local (found : Number.read? cs = some (value, rest)) :
    ∃ u, cs = u ++ rest ∧ ∀ more, Similar rest more → Number.read? (u ++ more) = some (value, more) :=
  local_of_append (fun w _ stopped => Number.read?_append w stopped) Number.read?_suffix found

theorem leaf?_of_ident (found : ident? cs = some (name, rest)) : leaf? cs = some (.ident name, rest) := by
  simp [leaf?, quotation_of_ident found, number_of_ident found, punct_of_ident found, found]

theorem leaf?_of_punct (found : punct? cs = some (token, rest)) : leaf? cs = some (token, rest) := by
  simp [leaf?, quotation_of_punct found, number_of_punct found, found]

theorem leaf?_local (found : leaf? cs = some (token, rest)) :
    ∃ u, u ≠ [] ∧ cs = u ++ rest ∧ ∀ more, Similar rest more → ∃ token, leaf? (u ++ more) = some (token, more) := by
  obtain literal | ⟨-, word⟩ := or_eq_some_iff.mp found
  · obtain literal | ⟨-, punct⟩ := or_eq_some_iff.mp literal
    · obtain ⟨⟨value, _⟩, read, same⟩ := map_eq_some_iff.mp literal
      obtain ⟨rfl, rfl⟩ := mk.inj same
      obtain quoted | ⟨-, number⟩ := or_eq_some_iff.mp read
      · obtain ⟨u, solid, rfl, again⟩ := Quotation.read?_local quoted
        exact ⟨u, solid, rfl, fun more similar => ⟨.literal value, by simp [leaf?, again more similar]⟩⟩
      · obtain ⟨u, rfl, again⟩ := number?_local number
        refine ⟨u, ?_, rfl, fun more similar => ⟨.literal value, ?_⟩⟩
        · rintro rfl
          exact number_shorter number rfl
        · have number := again more similar
          simp [leaf?, quotation_of_number number, number]
    · obtain ⟨c, rfl, again⟩ := punct?_local punct
      refine ⟨[c], by simp, rfl, fun more similar => ?_⟩
      obtain ⟨token, punct⟩ := again more similar
      exact ⟨token, leaf?_of_punct punct⟩
  · obtain ⟨⟨name, _⟩, ident, same⟩ := map_eq_some_iff.mp word
    obtain ⟨rfl, rfl⟩ := mk.inj same
    obtain ⟨u, rfl, again⟩ := ident?_local ident
    refine ⟨u, ?_, rfl, fun more similar => ⟨.ident name, leaf?_of_ident (again more similar)⟩⟩
    rintro rfl
    exact anyIdent?_shorter (ite_none_left_eq_some.mp ident).2 rfl

end Leaves
end Lexer
end LiveMarkup.Expression