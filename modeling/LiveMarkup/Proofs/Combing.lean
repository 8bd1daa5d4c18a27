import LiveMarkup.Proofs.BlockSearch
import LiveMarkup.Proofs.EmbeddedCode
import LiveMarkup.Proofs.ErrorLocations
import LiveMarkup.Proofs.SpelledText

/-!
The blocks that are found in a text, one behind the other, and code that is complete by itself: every comment, literal and
block that the search comes upon ends in the code. In front of a stop such code gives the same blocks as on its own.
-/

namespace LiveMarkup.Codegen
open Template (Tree Strung moved parseBlock)
open Expression (Stopped stops)
open List Option

/-- The text of a block, from its name to the brace that closes it, or to the one that opens it if the block is refused. -/
abbrev Block := List Char

namespace Site

variable {previous : Option Char} {c : Char} {rest t : List Char} {cs body : List Char} {n : Nat}
variable {name : List Char} {hashes : Nat}

/-- Whether a raw string ends in the text behind its letter; hashes alone are none. -/
def closesRaw (rest : List Char) : Bool :=
  let hashes := (rest.takeWhile (· = '#')).length
  match rest.drop hashes with
  | '"' :: body => (Template.Code.rawLength? hashes body).isSome
  | _ => true

/-- Whether a character literal ends in the text behind its quote; a lifetime does once there is a name. -/
def closesChar : List Char → Bool
  | [] => false
  | ['\\'] => false
  | '\\' :: _ :: escaped => escaped.contains '\''
  | _ => true

/-- Whether what stands here ends in the text: a comment with its line or its mark, a literal with its quote. -/
def isClosed (previous : Option Char) (c : Char) (rest : List Char) : Bool :=
  !isSkipped previous c rest ||
    match c, rest with
    | '/', '/' :: line => line.contains '\n'
    | '/', '*' :: body => (Expression.Lexer.blockComment? 0 body).isSome
    | '"', body => (Template.Code.stringLength? body).isSome
    | '\'', body => closesChar body
    | _, body => closesRaw body

theorem isSkipped_eq (previous : Option Char) (c : Char) (rest : List Char) : isSkipped previous c rest =
    (c == '"' || c == '\'' || (c == '/' && (rest.head? == some '/' || rest.head? == some '*')) ||
      (c == 'r' && ((!(previous.map isWordChar).getD false || previous == some 'b') &&
        (rest.head? == some '"' || rest.head? == some '#')))) := by
  unfold isSkipped
  split
  case h_6 string char line block raw =>
    cases rest with
    | nil => simpa using ⟨string, char⟩
    | cons => simp_all
  all_goals simp_all

theorem isSkipped_append (stopped : Stopped t) : isSkipped previous c (rest ++ t) = isSkipped previous c rest := by
  cases rest with
  | cons => rw [isSkipped_eq, isSkipped_eq, cons_append, head?_cons, head?_cons]
  | nil =>
    have apart (d : Char) (other : d ∉ stops) : (t.head? == some d) = false :=
      beq_eq_false_iff_ne.mpr fun head => other (stopped d head)
    rw [isSkipped_eq, isSkipped_eq, nil_append, apart '/' (by decide), apart '*' (by decide), apart '"' (by decide),
      apart '#' (by decide)]
    rfl

theorem stringLength?_append (found : Template.Code.stringLength? cs = some n) (t : List Char) :
    Template.Code.stringLength? (cs ++ t) = some n := by
  fun_induction Template.Code.stringLength? cs generalizing n with
  | case1 => cases found
  | case2 => exact found
  | case3 _ _ ih =>
    obtain ⟨_, inner, rfl⟩ := map_eq_some_iff.mp found
    simp [Template.Code.stringLength?, ih inner]
  | case4 d rest plain other ih =>
    obtain ⟨_, inner, rfl⟩ := map_eq_some_iff.mp found
    have longer : Template.Code.stringLength? (d :: (rest ++ t)) = (Template.Code.stringLength? (rest ++ t)).map (· + 1) := by
      refine Template.Code.stringLength?.eq_4 d (rest ++ t) plain fun e tail escape same => ?_
      cases rest with
      | nil => cases inner
      | cons f rest => exact other f rest escape rfl
    rw [cons_append, longer, ih inner]
    rfl

theorem rawLength?_long (found : Template.Code.rawLength? hashes cs = some n) : hashes < n ∧ n ≤ cs.length := by
  induction cs generalizing n with
  | nil => cases found
  | cons _ _ ih =>
    rw [Template.Code.rawLength?] at found
    split at found
    · rename_i ends
      obtain rfl := Option.some.inj found
      have size := congrArg length ends.2
      simp only [length_take, length_replicate] at size
      simp only [length_cons]
      omega
    · obtain ⟨_, inner, rfl⟩ := map_eq_some_iff.mp found
      have both := ih inner
      simp only [length_cons]
      omega

theorem rawLength?_append (found : Template.Code.rawLength? hashes cs = some n) (t : List Char) :
    Template.Code.rawLength? hashes (cs ++ t) = some n := by
  induction cs generalizing n with
  | nil => cases found
  | cons _ cs ih =>
    have long : hashes ≤ cs.length := by
      have both := rawLength?_long found
      rw [length_cons] at both
      omega
    rw [Template.Code.rawLength?] at found
    rw [cons_append, Template.Code.rawLength?, take_append_of_le_length long]
    split at found
    · rename_i ends
      rw [if_pos ends]
      exact found
    · rename_i goes
      obtain ⟨_, inner, rfl⟩ := map_eq_some_iff.mp found
      rw [if_neg goes, ih inner]
      rfl

theorem takeWhile_append_of_mem {p : Char → Bool} (ends : ∃ d ∈ cs, p d = false) (t : List Char) :
    (cs ++ t).takeWhile p = cs.takeWhile p ∧ (cs.takeWhile p).length < cs.length := by
  induction cs with
  | nil => simp at ends
  | cons d cs ih =>
    cases goes : p d with
    | false => simp [goes]
    | true =>
      have later : ∃ d ∈ cs, p d = false := by simpa [goes] using ends
      obtain ⟨same, less⟩ := ih later
      simp [goes, same, less]

theorem drop_takeWhile (p : Char → Bool) (cs : List Char) : cs.drop (cs.takeWhile p).length = cs.dropWhile p := by
  induction cs with
  | nil => rfl
  | cons d _ ih => cases goes : p d <;> simp [goes, ih]

theorem blockComment_append (closed : (Expression.Lexer.blockComment? 0 body).isSome = true) (t : List Char) :
    blockComment 1 (body ++ t) = blockComment 1 body ∧ blockComment 1 body ≤ body.length := by
  obtain ⟨behind, found⟩ := isSome_iff_exists.mp closed
  obtain ⟨_, -, rfl, again, -⟩ := Expression.Lexer.blockComment?_local (n := 0) found
  have one := (Source.blockComment?_closes found).1
  have two := (Source.blockComment?_closes (again (behind ++ t))).1
  rw [append_assoc]
  simp only [length_append, Nat.zero_add] at one two
  constructor
  · omega
  · rw [length_append]
    omega

theorem string_append (closed : (Template.Code.stringLength? body).isSome = true) (t : List Char) :
    string (body ++ t) = string body ∧ string body ≤ body.length := by
  obtain ⟨_, found⟩ := isSome_iff_exists.mp closed
  obtain ⟨same, _, _, rfl, there, -⟩ := Source.stringLength?_closes found
  rw [same, (Source.stringLength?_closes (stringLength?_append found t)).1]
  exact ⟨rfl, (List.getElem?_eq_some_iff.mp there).1⟩

theorem charLiteral_append (stopped : Stopped t) (closed : closesChar body = true) :
    charLiteral (body ++ t) = charLiteral body ∧ charLiteral body ≤ body.length := by
  unfold closesChar at closed
  split at closed
  · cases closed
  · cases closed
  · rename_i e escaped
    have ends : ∃ d ∈ escaped, decide (d ≠ '\'') = false := ⟨'\'', by simpa using closed, by decide⟩
    obtain ⟨same, less⟩ := takeWhile_append_of_mem ends t
    have longer : (escaped.takeWhile fun d => decide (d ≠ '\'')).length < (escaped ++ t).length := by
      rw [length_append]
      omega
    simp only [charLiteral, cons_append, drop_one, tail_cons, length_cons, same, if_pos less, if_pos longer]
    constructor <;> omega
  · rename_i none single escape
    cases body with
    | nil => exact absurd rfl none
    | cons d body =>
      have plain : d ≠ '\\' := by
        rintro rfl
        cases body with
        | nil => exact single rfl
        | cons e body => exact escape e body rfl
      cases body with
      | nil =>
        have apart : t.head? ≠ some '\'' := fun head => absurd (stopped _ head) (by decide)
        have none (u : List Char) (apart : u.head? ≠ some '\'') : charLiteral (d :: u) = 0 := by
          unfold charLiteral
          split <;> simp_all
        rw [singleton_append, none t apart, none [] (by simp)]
        exact ⟨rfl, Nat.zero_le _⟩
      | cons e =>
        have one (u : List Char) : charLiteral (d :: e :: u) = if e = '\'' then 2 else 0 := by
          unfold charLiteral
          split <;> simp_all
        rw [cons_append, cons_append, one, one]
        refine ⟨rfl, ?_⟩
        simp only [length_cons]
        split <;> omega

theorem rawString_append (stopped : Stopped t) (closed : closesRaw body = true) :
    rawString (body ++ t) = rawString body ∧ rawString body ≤ body.length := by
  have apart (d : Char) (other : d ∉ stops) : t.head? ≠ some d := fun head => other (stopped d head)
  by_cases ends : ∃ d ∈ body, decide (d = '#') = false
  · obtain ⟨same, less⟩ := takeWhile_append_of_mem ends t
    obtain ⟨d, behind, there⟩ := exists_cons_of_length_pos (l := body.drop (body.takeWhile (· = '#')).length) (by
      rw [length_drop]
      omega)
    have whole : (body ++ t).drop (body.takeWhile (· = '#')).length = d :: (behind ++ t) := by
      rw [drop_append_of_le_length less.le, there]
      rfl
    have size := congrArg length there
    rw [length_drop, length_cons] at size
    unfold closesRaw at closed
    rw [rawString, rawString, same]
    simp only [there, whole] at closed ⊢
    by_cases quote : d = '"'
    · subst quote
      obtain ⟨_, found⟩ := Option.isSome_iff_exists.mp closed
      have long := (rawLength?_long found).2
      simp only [(Source.rawBody_closes found).1, (Source.rawBody_closes (rawLength?_append found t)).1, true_and]
      omega
    · have small := less.le
      split <;> simp_all
  · have all : ∀ d ∈ body, decide (d = '#') = true := by simpa using ends
    have first : t.takeWhile (fun d => decide (d = '#')) = [] := by
      cases t with
      | nil => rfl
      | cons d =>
        have other : d ≠ '#' := fun same => apart '#' (by decide) (by rw [head?_cons, same])
        simp [other]
    have whole : (body ++ t).takeWhile (fun d => decide (d = '#')) = body := by
      rw [takeWhile_append_of_pos all, first, append_nil]
    have own : body.takeWhile (fun d => decide (d = '#')) = body := takeWhile_eq_self_iff.mpr all
    rw [rawString, rawString, whole, own, drop_left, drop_length]
    refine ⟨?_, le_rfl⟩
    split
    · rename_i behind
      exact absurd rfl (apart '"' (by decide))
    · rfl

theorem advance_append (stopped : Stopped t) (closed : isClosed previous c rest = true) :
    advance previous c (rest ++ t) = advance previous c rest ∧ advance previous c rest ≤ rest.length + 1 := by
  cases skipped : isSkipped previous c rest with
  | false =>
    rw [advance_eq_one skipped, advance_eq_one ((isSkipped_append stopped).trans skipped)]
    exact ⟨rfl, by omega⟩
  | true =>
    unfold isClosed at closed
    rw [skipped, Bool.not_true, Bool.false_or] at closed
    unfold isSkipped at skipped
    split at skipped
    · rename_i line
      have ends : ∃ d ∈ '/' :: line, decide (d ≠ '\n') = false := ⟨'\n', by simpa using closed, by decide⟩
      obtain ⟨same, _⟩ := takeWhile_append_of_mem ends t
      simp only [advance, cons_append] at same ⊢
      rw [same]
      exact ⟨rfl, by omega⟩
    · rename_i body
      obtain ⟨same, _⟩ := blockComment_append closed t
      simp only [advance, cons_append, same, length_cons]
      exact ⟨trivial, by omega⟩
    · rename_i body
      obtain ⟨same, _⟩ := string_append closed t
      simp only [advance, same]
      exact ⟨trivial, by omega⟩
    · rename_i next tail
      have closed : closesRaw (next :: tail) = true := closed
      obtain ⟨same, _⟩ := rawString_append stopped closed
      rw [cons_append] at same ⊢
      simp only [advance, same]
      split
      · exact ⟨trivial, by omega⟩
      · exact ⟨trivial, by omega⟩
    · obtain ⟨same, _⟩ := charLiteral_append stopped closed
      simp only [advance, same]
      exact ⟨trivial, by omega⟩
    · cases skipped

/-- No character of the name is a stop, so that a name does not go on behind one. -/
def Plain (name : List Char) : Prop := ∀ c ∈ name, c ∉ stops

/-- A text that begins with a stop, unless it is empty, and does not open a block. -/
structure Shut (t : List Char) : Prop where
  stopped : Stopped t
  plain : (t.dropWhile isSpace).head? ≠ some '\x7b'

theorem shut_nil : Shut [] := ⟨nofun, nofun⟩

theorem openingLength?_append (shut : Shut t) : Source.openingLength? (cs ++ t) = Source.openingLength? cs := by
  cases cs with
  | nil =>
    cases t with
    | nil => rfl
    | cons c =>
      have other : c ≠ '!' := fun same => absurd (shut.stopped c rfl) (by rw [same]; decide)
      simp [Source.openingLength?, other]
  | cons c cs =>
    by_cases bang : c = '!'
    · subst bang
      simp only [Source.openingLength?, cons_append]
      by_cases ends : ∃ d ∈ cs, isSpace d = false
      · obtain ⟨same, less⟩ := takeWhile_append_of_mem ends t
        rw [same, drop_append_of_le_length less.le, head?_append_of_ne_nil]
        intro none
        rw [drop_eq_nil_iff] at none
        omega
      · have all : ∀ d ∈ cs, isSpace d = true := by simpa using ends
        have plain := shut.plain
        rw [takeWhile_append_of_pos all, takeWhile_eq_self_iff.mpr all, drop_length, length_append,
          ← drop_drop, drop_left, drop_takeWhile]
        simp [plain]
    · simp [Source.openingLength?, bang]

theorem blockHere_append (plain : Plain name) (shut : Shut t) : blockHere name (cs ++ t) = blockHere name cs := by
  rw [blockHere_eq, blockHere_eq]
  by_cases begins : name <+: cs
  · obtain ⟨behind, rfl⟩ := begins
    have one : name.isPrefixOf (name ++ behind ++ t) = true :=
      isPrefixOf_iff_prefix.mpr (by rw [append_assoc]; exact prefix_append _ _)
    have two : name.isPrefixOf (name ++ behind) = true := isPrefixOf_iff_prefix.mpr (prefix_append _ _)
    rw [if_pos one, if_pos two, append_assoc, drop_left, drop_left, openingLength?_append shut]
  · have later : ¬ name <+: cs ++ t := by
      rintro ⟨_, joined⟩
      obtain ⟨more, split, -⟩ | ⟨more, split, rest⟩ := append_eq_append_iff.mp joined
      · exact begins ⟨more, split.symm⟩
      · cases more with
        | nil => exact begins ⟨[], by rw [split]; simp⟩
        | cons c =>
          have stop := shut.stopped c (by rw [rest]; rfl)
          exact plain c (by simp [split]) stop
    rw [if_neg (by rwa [ isPrefixOf_iff_prefix]), if_neg (by rwa [ isPrefixOf_iff_prefix])]

theorem opening_of_blockHere (begins : blockHere name cs = some n) :
    ∃ blanks behind, cs = name ++ '!' :: (blanks ++ '\x7b' :: behind) ∧ n = name.length + 1 + blanks.length := by
  rw [blockHere] at begins
  split at begins
  case isFalse => cases begins
  case isTrue named =>
    obtain ⟨rest, rfl⟩ := isPrefixOf_iff_prefix.mp named
    rw [drop_left] at begins
    split at begins
    · rename_i rest
      dsimp only at begins
      split at begins
      · rename_i brace
        obtain rfl := Option.some.inj begins
        obtain ⟨behind, solid⟩ := head?_eq_some_iff.mp brace
        refine ⟨rest.takeWhile isSpace, behind, ?_, rfl⟩
        rw [← solid, drop_takeWhile, takeWhile_append_dropWhile]
      · cases begins
    · cases begins

end Site

section Finding

open Site

variable {name : List Char} {spot : Spot} {found later : List Block} {n : Nat} {bytes : Nat} {other : Spot}

/-- No template can be read from the brace at the start of a text. -/
def Refused (cs : List Char) : Prop := ∀ parsed, parseBlock (String.ofList cs) ≠ .ok parsed

/-- The blocks that are found from a spot on, one behind the other. Behind a block that is refused there may be any. -/
inductive Finds (name : List Char) : Spot → List Block → Prop
  | none {spot : Spot} (ended : next name spot = none) : Finds name spot []
  | block {spot start brace : Spot} {roots : List Tree} {bytes : Nat} {later : List Block}
      (found : next name spot = some (start, brace)) (read : parseBlock (String.ofList brace.rest) = .ok (roots, bytes))
      (behind : Finds name (brace.skipBytes bytes) later) : Finds name spot (start.textTo (brace.skipBytes bytes) :: later)
  | refused {spot start brace : Spot} (later : List Block) (found : next name spot = some (start, brace))
      (fails : Refused brace.rest) : Finds name spot (start.textTo (brace.skip 1) :: later)

theorem Finds.congr (finds : Finds name other found) (same : next name spot = next name other) :
    Finds name spot found := by
  cases finds with
  | none ended => exact .none (same.trans ended)
  | block here read behind => exact .block (same.trans here) read behind
  | refused later here fails => exact .refused later (same.trans here) fails

namespace Spot

theorem textTo_skip (spot : Spot) (n : Nat) : spot.textTo (spot.skip n) = spot.rest.take n := by
  rw [textTo, rest_skip, length_drop, take_eq_take_iff]
  omega

structure Alike (one two : Spot) : Prop where
  word : one.inWord = two.inWord
  mark : one.previous = some 'b' ↔ two.previous = some 'b'

theorem Alike.of_eq {one two : Spot} (same : one.previous = two.previous) : Alike one two :=
  ⟨by rw [inWord, inWord, same], by rw [same]⟩

theorem Alike.of_apart {one two : Spot} (first : one.inWord = false) (second : two.inWord = false) : Alike one two := by
  have none {spot : Spot} (apart : spot.inWord = false) : spot.previous ≠ some 'b' := by
    intro same
    rw [inWord, same] at apart
    exact absurd apart (by decide)
  exact ⟨first.trans second.symm, ⟨fun same => absurd same (none first), fun same => absurd same (none second)⟩⟩

variable {one two : Spot}

theorem Alike.previous (alike : Alike one two) :
    (one.previous.map isWordChar).getD false = (two.previous.map isWordChar).getD false ∧
      (one.previous == some 'b') = (two.previous == some 'b') := by
  refine ⟨alike.word, ?_⟩
  rw [Bool.eq_iff_iff, beq_iff_eq, beq_iff_eq]
  exact alike.mark

theorem Alike.isSkipped (alike : Alike one two) (c : Char) (rest : List Char) :
    isSkipped one.previous c rest = isSkipped two.previous c rest := by
  rw [isSkipped_eq, isSkipped_eq, alike.previous.1, alike.previous.2]

theorem Alike.advance (alike : Alike one two) (c : Char) (rest : List Char) :
    advance one.previous c rest = advance two.previous c rest := by
  unfold Site.advance
  simp only [alike.previous.1, alike.previous.2]

theorem alike_skip {t : List Char} {n : Nat} (same : two.rest = one.rest ++ t) (pos : 0 < n) (mem : n ≤ one.rest.length) :
    Alike (one.skip n) (two.skip n) := by
  refine .of_eq ?_
  have taken : two.rest.take n = one.rest.take n := by rw [same, take_append_of_le_length mem]
  have some : (one.rest.take n).getLast? ≠ none := by
    rw [ne_eq, getLast?_eq_none_iff, take_eq_nil_iff]
    rintro (_ | none)
    · omega
    · rw [none, length_nil] at mem
      omega
  obtain ⟨_, last⟩ := ne_none_iff_exists'.mp some
  rw [skip, skip, taken, last]
  rfl

end Spot

/-- From a spot on everything ends in the text itself: what is passed over, and the blocks that are found, which are read or
refused in the same way whatever is put behind the text. -/
inductive Combed (name : List Char) : Spot → List Block → Prop
  | done {spot : Spot} (ended : spot.rest = []) : Combed name spot []
  | step {spot : Spot} {c : Char} {rest : List Char} {later : List Block} (there : spot.rest = c :: rest)
      (none : isSkipped spot.previous c rest = true ∨ spot.inWord = true ∨ blockHere name spot.rest = none)
      (closed : isClosed spot.previous c rest = true) (behind : Combed name (spot.skip (advance spot.previous c rest)) later) :
      Combed name spot later
  | block {spot : Spot} {c : Char} {rest : List Char} {n : Nat} {roots : List Tree} {bytes : Nat} {later : List Block}
      (there : spot.rest = c :: rest) (shown : isSkipped spot.previous c rest = false) (apart : spot.inWord = false)
      (begins : blockHere name spot.rest = some n)
      (read : ∀ t, parseBlock (String.ofList (spot.rest.drop n ++ t)) = .ok (roots, bytes))
      (behind : Combed name ((spot.skip n).skipBytes bytes) later) :
      Combed name spot (spot.textTo ((spot.skip n).skipBytes bytes) :: later)
  | refused {spot : Spot} {c : Char} {rest : List Char} {n : Nat} (there : spot.rest = c :: rest)
      (shown : isSkipped spot.previous c rest = false) (apart : spot.inWord = false) (begins : blockHere name spot.rest = some n)
      (fails : ∀ t, Refused (spot.rest.drop n ++ t)) : Combed name spot [spot.textTo (spot.skip (n + 1))]

/-- Code in which the search finds its way, however far its lines are moved. -/
def Complete (name : List Char) (code : String) : Prop :=
  ∀ n, ∃ found, Combed name (.start (moved n code.toList)) found

theorem skip_block {roots : List Tree} (read : parseBlock (String.ofList (spot.rest.drop n)) = .ok (roots, bytes)) :
    ∃ k, n + k ≤ spot.rest.length ∧ 0 < k ∧ (∀ t, Spot.charsIn bytes (spot.rest.drop n ++ t) = k) ∧
      ∃ inner, spot.rest.drop n = ('\x7b' :: inner ++ ['\x7d']) ++ spot.rest.drop (n + k) ∧
        k = ('\x7b' :: inner ++ ['\x7d']).length ∧ Strung (Tree.texts roots) inner := by
  obtain ⟨inner, behind, there, rfl, strung⟩ := Template.strung_parseBlock read
  have whole : spot.rest.drop n = ('\x7b' :: inner ++ ['\x7d']) ++ behind := by
    rw [there]
    simp
  have size := congrArg length whole
  rw [length_drop, length_append] at size
  refine ⟨('\x7b' :: inner ++ ['\x7d']).length, ?_, by simp, fun t => ?_, inner, ?_, rfl, strung⟩
  · rw [length_append, length_cons] at size ⊢
    simp only [length_singleton] at size ⊢
    omega
  · rw [whole, append_assoc]
    exact Spot.charsIn_utf8Len _ _
  · rw [← drop_drop, whole, drop_left]

theorem skip_opening (begins : blockHere name spot.rest = some n) :
    ∃ opening behind, opening.length = n ∧ name ++ ['!'] <+: opening ∧ spot.rest = opening ++ '\x7b' :: behind := by
  obtain ⟨blanks, behind, there, rfl⟩ := opening_of_blockHere begins
  refine ⟨name ++ '!' :: blanks, behind, ?_, ⟨blanks, by simp⟩, by simp [there]⟩
  rw [length_append, length_cons]
  omega

theorem skipBytes_skip {k : Nat} (count : Spot.charsIn bytes (spot.rest.drop n) = k) :
    (spot.skip n).skipBytes bytes = spot.skip (n + k) := by
  rw [Spot.skipBytes, Spot.rest_skip, count, Spot.skip_skip]

theorem Combed.finds (combed : Combed name spot found) (plain : Plain name) {t : List Char}
    (same : other.rest = spot.rest ++ t) (alike : Spot.Alike spot other) (shut : Shut t)
    (finds : Finds name (other.skip spot.rest.length) later) : Finds name other (found ++ later) := by
  induction combed generalizing other with
  | done ended =>
    rw [ended, length_nil, Spot.skip_zero] at finds
    exact finds
  | @step spot c rest _ there none closed _ ih =>
    have ahead : other.rest = c :: (rest ++ t) := by
      rw [same, there]
      rfl
    obtain ⟨length, _⟩ := advance_append shut.stopped closed
    have steps : advance other.previous c (rest ++ t) = advance spot.previous c rest := by
      rw [← alike.advance, length]
    have short : advance spot.previous c rest ≤ spot.rest.length := by rwa [there]
    have none : isSkipped other.previous c (rest ++ t) = true ∨ other.inWord = true ∨ blockHere name other.rest = Option.none := by
      rwa [← alike.isSkipped, isSkipped_append shut.stopped, ← alike.word, same, blockHere_append plain shut]
    refine Finds.congr ?_ (next_step ahead none)
    rw [steps]
    refine ih ?_ (Spot.alike_skip same (advance_pos ..) short) ?_
    · rw [Spot.rest_skip, Spot.rest_skip, same, drop_append_of_le_length short]
    · rw [Spot.rest_skip, length_drop, Spot.skip_skip, Nat.add_sub_cancel' short]
      exact finds
  | @block spot c rest n _ bytes _ there _ apart _ read _ ih =>
    have ahead : other.rest = c :: (rest ++ t) := by
      rw [same, there]
      rfl
    have alone := read []
    rw [append_nil] at alone
    obtain ⟨k, mem, _, count, -⟩ := skip_block alone
    have one : (spot.skip n).skipBytes bytes = spot.skip (n + k) := skipBytes_skip (by simpa using count [])
    have drop : other.rest.drop n = spot.rest.drop n ++ t := by rw [same, drop_append_of_le_length (by omega)]
    have two : (other.skip n).skipBytes bytes = other.skip (n + k) := skipBytes_skip (by rw [drop, count])
    have here : next name other = some (other, other.skip n) := by
      refine next_here ahead ?_ (alike.word ▸ apart) ?_
      · rwa [← alike.isSkipped, isSkipped_append shut.stopped]
      · rwa [same, blockHere_append plain shut]
    have text : spot.textTo ((spot.skip n).skipBytes bytes) = other.textTo ((other.skip n).skipBytes bytes) := by
      rw [one, two, Spot.textTo_skip, Spot.textTo_skip, same, take_append_of_le_length mem]
    rw [text, cons_append]
    refine .block here (by rw [Spot.rest_skip, drop]; exact read t) ?_
    rw [one] at ih
    rw [two]
    refine ih ?_ (Spot.alike_skip same (by omega) mem) ?_
    · rw [Spot.rest_skip, Spot.rest_skip, same, drop_append_of_le_length mem]
    · rw [Spot.rest_skip, length_drop, Spot.skip_skip, Nat.add_sub_cancel' mem]
      exact finds
  | @refused spot c rest _ there _ apart begins fails =>
    have ahead : other.rest = c :: (rest ++ t) := by
      rw [same, there]
      rfl
    obtain ⟨opening, _, rfl, -, whole⟩ := skip_opening begins
    have mem : opening.length + 1 ≤ spot.rest.length := by
      rw [whole, length_append, length_cons]
      omega
    have here : next name other = some (other, other.skip opening.length) := by
      refine next_here ahead ?_ (alike.word ▸ apart) ?_
      · rwa [← alike.isSkipped, isSkipped_append shut.stopped]
      · rwa [same, blockHere_append plain shut]
    have text : spot.textTo (spot.skip (opening.length + 1)) = other.textTo ((other.skip opening.length).skip 1) := by
      rw [Spot.skip_skip, Spot.textTo_skip, Spot.textTo_skip, same, take_append_of_le_length mem]
    rw [text, singleton_append]
    refine .refused later here ?_
    rw [Spot.rest_skip, same, drop_append_of_le_length (by omega)]
    exact fails t

theorem Combed.strung (combed : Combed name spot found) : Strung found spot.rest := by
  induction combed with
  | done => exact .nil _
  | @step spot c rest _ _ _ _ _ ih =>
    have whole := ih.prepend (spot.rest.take (advance spot.previous c rest))
    rwa [Spot.rest_skip, take_append_drop] at whole
  | @block spot _ _ n _ bytes _ _ _ _ _ read _ ih =>
    have alone := read []
    rw [append_nil] at alone
    obtain ⟨k, _, _, count, -⟩ := skip_block alone
    have one : (spot.skip n).skipBytes bytes = spot.skip (n + k) := skipBytes_skip (by simpa using count [])
    rw [one] at ih ⊢
    have both : spot.textTo (spot.skip (n + k)) ++ (spot.skip (n + k)).rest = spot.rest := by
      rw [Spot.textTo_skip, Spot.rest_skip, take_append_drop]
    have whole := Strung.cons [] (spot.textTo (spot.skip (n + k))) ih
    rwa [nil_append, both] at whole
  | @refused spot _ _ n =>
    have whole := Template.strung_singleton [] (spot.rest.take (n + 1)) (spot.rest.drop (n + 1))
    rwa [nil_append, take_append_drop, ← Spot.textTo_skip] at whole

structure Framed (name : List Char) (block : Block) : Prop where
  begins : name ++ ['!'] <+: block
  ends : block.getLast? = some '\x7b' ∨ block.getLast? = some '\x7d'

theorem Combed.framed (combed : Combed name spot found) : ∀ block ∈ found, Framed name block := by
  induction combed with
  | done => exact nofun
  | step _ _ _ _ ih => exact ih
  | @block _ _ _ _ _ _ _ there _ _ begins read _ ih =>
    intro block mem
    rcases mem_cons.mp mem with rfl | mem
    · have alone := read []
      rw [append_nil] at alone
      obtain ⟨_, -, -, count, _, whole, size, -⟩ := skip_block alone
      obtain ⟨_, _, rfl, named, there⟩ := skip_opening begins
      rw [there, drop_left] at whole
      rw [skipBytes_skip (by simpa using count []), Spot.textTo_skip, there, whole, ← append_assoc, size, ← length_append,
        take_left]
      exact ⟨named.trans (prefix_append _ _), .inr (by rw [← append_assoc, getLast?_concat])⟩
    · exact ih block mem
  | @refused spot _ _ _ there _ _ begins =>
    intro block mem
    obtain rfl := mem_singleton.mp mem
    obtain ⟨opening, _, rfl, named, there⟩ := skip_opening begins
    have taken : spot.rest.take (opening.length + 1) = opening ++ ['\x7b'] := by simp [there, take_append]
    rw [Spot.textTo_skip, taken]
    exact ⟨named.trans (prefix_append _ _), .inl (by simp)⟩

end Finding

section Passing

open Site

variable {name cs a b t : List Char} {spot : Spot} {found more later : List Block} {c : Char} {rest : List Char}

def Crosses (name cs : List Char) (found : List Block) : Prop :=
  ∀ (spot : Spot) t later, spot.rest = cs ++ t → spot.inWord = false → Shut t → Finds name (spot.skip cs.length) later →
    Finds name spot (found ++ later)

def CrossesOn (name cs : List Char) (found : List Block) : Prop :=
  ∀ (spot : Spot) t, spot.rest = cs ++ t → spot.inWord = false → (spot.skip cs.length).inWord = false ∧
    ∀ later, Finds name (spot.skip cs.length) later → Finds name spot (found ++ later)

structure Shuts (cs : List Char) : Prop where
  stops : ∃ c ∈ cs.head?, c ∈ stops
  plain : ∃ c ∈ (cs.dropWhile isSpace).head?, c ≠ '\x7b'

theorem Shuts.shut (shuts : Shuts cs) (t : List Char) : Shut (cs ++ t) := by
  obtain ⟨⟨_, head, stop⟩, _, first, plain⟩ := shuts
  obtain ⟨_, rfl⟩ := head?_eq_some_iff.mp head
  refine ⟨fun e same => Option.some.inj same ▸ stop, ?_⟩
  obtain ⟨_, solid⟩ := head?_eq_some_iff.mp first
  rw [dropWhile_append, solid]
  simpa using plain

theorem Shuts.append (shuts : Shuts a) (b : List Char) : Shuts (a ++ b) := by
  obtain ⟨⟨c, head, stop⟩, d, first, plain⟩ := shuts
  obtain ⟨_, rfl⟩ := head?_eq_some_iff.mp head
  refine ⟨⟨c, rfl, stop⟩, d, ?_, plain⟩
  obtain ⟨_, solid⟩ := head?_eq_some_iff.mp first
  rw [dropWhile_append, solid]
  rfl

theorem dropWhile_replicate_blank (n : Nat) (cs : List Char) :
    (replicate n ' ' ++ cs).dropWhile isSpace = cs.dropWhile isSpace := by
  induction n with
  | zero => rfl
  | succ _ ih => exact ih

theorem moved_blanks (m n : Nat) : moved m (replicate n ' ') = replicate n ' ' :=
  Expression.Lexer.moved_line m fun line => absurd (eq_of_mem_replicate line) (by decide)

theorem moved_moved (m n : Nat) (cs : List Char) : moved m (moved n cs) = moved (m + n) cs := by
  induction cs with
  | nil => rfl
  | cons _ _ ih =>
    rw [Expression.Lexer.moved_cons n, Expression.Lexer.moved_cons (m + n), Expression.Lexer.moved_append, ih]
    congr 1
    split
    · rw [Expression.Lexer.moved_cons, if_pos rfl, moved_blanks, replicate_add]
      rfl
    · rename_i other
      rw [Expression.Lexer.moved_cons, if_neg other]
      rfl

theorem Shuts.moved (shuts : Shuts cs) (n : Nat) : Shuts (moved n cs) := by
  obtain ⟨⟨c, head, stop⟩, d, first, plain⟩ := shuts
  refine ⟨⟨c, (Expression.Lexer.head?_moved n cs).trans head, stop⟩, d, ?_, plain⟩
  clear head stop
  induction cs with
  | nil => cases first
  | cons e _ ih =>
    rw [Expression.Lexer.moved_cons]
    by_cases blank : isSpace e = true
    · rw [dropWhile_cons_of_pos blank] at first
      split
      · rw [cons_append, dropWhile_cons_of_pos (by decide), dropWhile_replicate_blank]
        exact ih first
      · rw [singleton_append, dropWhile_cons_of_pos blank]
        exact ih first
    · have other : e ≠ '\n' := fun same => blank (same ▸ by decide)
      rw [dropWhile_cons_of_neg blank] at first
      rw [if_neg other, singleton_append, dropWhile_cons_of_neg blank]
      exact first

theorem Crosses.of_combed (combed : Combed name (.start cs) found) (plain : Plain name) : Crosses name cs found := by
  intro spot t later same apart shut finds
  exact combed.finds plain same (.of_apart rfl apart) shut finds

theorem CrossesOn.crosses (crosses : CrossesOn name cs found) : Crosses name cs found :=
  fun spot t later same apart _ finds => (crosses spot t same apart).2 later finds

theorem crossesOn_nil : CrossesOn name [] [] := fun spot t same apart => by
  rw [length_nil, Spot.skip_zero]
  exact ⟨apart, fun _ finds => finds⟩

theorem CrossesOn.then (one : CrossesOn name a found) (two : Crosses name b more) : Crosses name (a ++ b) (found ++ more) := by
  intro spot t later same apart shut finds
  rw [append_assoc] at same
  obtain ⟨clear, go⟩ := one spot (b ++ t) same apart
  rw [length_append, ← Spot.skip_skip] at finds
  have behind := two (spot.skip a.length) t later (by rw [Spot.rest_skip, same, drop_left]) clear shut finds
  rw [append_assoc]
  exact go _ behind

theorem CrossesOn.append (one : CrossesOn name a found) (two : CrossesOn name b more) : CrossesOn name (a ++ b) (found ++ more) := by
  intro spot t same apart
  rw [append_assoc] at same
  obtain ⟨clear, go⟩ := one spot (b ++ t) same apart
  obtain ⟨ends, on⟩ := two (spot.skip a.length) t (by rw [Spot.rest_skip, same, drop_left]) clear
  rw [length_append, ← Spot.skip_skip]
  refine ⟨ends, fun later finds => ?_⟩
  rw [append_assoc]
  exact go _ (on later finds)

theorem next_stop (plain : Plain name) (there : spot.rest = c :: rest) (stop : c ∈ stops) :
    next name spot = next name (spot.skip 1) := by
  have shown : isSkipped spot.previous c rest = false := by
    have apart (d : Char) (other : d ∉ stops) : c ≠ d := fun same => other (same ▸ stop)
    rw [isSkipped_eq]
    simp [apart '"' (by decide), apart '\'' (by decide), apart '/' (by decide), apart 'r' (by decide)]
  rw [next_step there (.inr (.inr ?_)), advance_eq_one shown]
  rw [there, blockHere_eq]
  split
  · rename_i begins
    cases name with
    | nil =>
      have bang : c ≠ '!' := fun same => absurd stop (by rw [same]; decide)
      simp [Source.openingLength?, bang]
    | cons d =>
      obtain ⟨_, joined⟩ := isPrefixOf_iff_prefix.mp begins
      obtain rfl := (cons.inj joined).1
      exact absurd stop (plain d mem_cons_self)
  · rfl

def Spot.bare (spot : Spot) : Spot := { spot with previous := none }

theorem Spot.skip_bare {n : Nat} (some : spot.rest.take n ≠ []) : spot.bare.skip n = spot.skip n := by
  obtain ⟨_, last⟩ := ne_none_iff_exists'.mp (mt getLast?_eq_none_iff.mp some)
  simp [Spot.skip, Spot.bare, last]

theorem next_bare (plain : Plain name) (there : spot.rest = c :: rest) (stop : c ∈ stops) :
    next name spot = next name spot.bare := by
  have one : spot.bare.skip 1 = spot.skip 1 := Spot.skip_bare (by simp [there])
  rw [next_stop plain there stop, ← one]
  exact (@next_stop _ spot.bare _ _ plain there stop).symm

theorem bare_of_shuts (plain : Plain name) (shuts : Shuts b) (there : spot.rest = b ++ t) :
    next name spot = next name spot.bare ∧ spot.bare.skip b.length = spot.skip b.length := by
  obtain ⟨_, head, stop⟩ := shuts.stops
  obtain ⟨_, rfl⟩ := head?_eq_some_iff.mp head
  exact ⟨next_bare plain there stop, Spot.skip_bare (by simp [there])⟩

theorem Crosses.then (one : Crosses name a found) (plain : Plain name) (shuts : Shuts b) (two : CrossesOn name b more) :
    CrossesOn name (a ++ b) (found ++ more) := by
  intro spot t same apart
  rw [append_assoc] at same
  have there : (spot.skip a.length).rest = b ++ t := by rw [Spot.rest_skip, same, drop_left]
  obtain ⟨free, on⟩ := bare_of_shuts plain shuts there
  obtain ⟨ends, go⟩ := two (spot.skip a.length).bare t there rfl
  rw [length_append, ← Spot.skip_skip, ← on]
  refine ⟨ends, fun later finds => ?_⟩
  rw [append_assoc]
  exact one spot (b ++ t) _ same apart (shuts.shut t) ((go later finds).congr free)

theorem Crosses.append (one : Crosses name a found) (plain : Plain name) (shuts : Shuts b) (two : Crosses name b more) :
    Crosses name (a ++ b) (found ++ more) := by
  intro spot t later same apart shut finds
  rw [append_assoc] at same
  have there : (spot.skip a.length).rest = b ++ t := by rw [Spot.rest_skip, same, drop_left]
  obtain ⟨free, on⟩ := bare_of_shuts plain shuts there
  rw [length_append, ← Spot.skip_skip, ← on] at finds
  rw [append_assoc]
  exact one spot (b ++ t) _ same apart (shuts.shut t) ((two (spot.skip a.length).bare t later there rfl shut finds).congr free)

def marks : List Char := ['"', '\'', '/', '#', '!']

/-- Whether nothing begins in a text: no comment and no literal, and no block behind an exclamation mark. -/
def isMute : List Char → Bool
  | [] => true
  | '!' :: c :: rest => !isSpace c && c != '\x7b' && isMute (c :: rest)
  | c :: rest => !marks.contains c && isMute rest

theorem isMute_bang (cs : List Char) : isMute ('!' :: c :: cs) = (!isSpace c && c != '\x7b' && isMute (c :: cs)) := rfl

theorem isMute_plain (apart : c ≠ '!') (cs : List Char) : isMute (c :: cs) = (!marks.contains c && isMute cs) :=
  isMute.eq_3 c cs fun _ _ same => absurd same apart

theorem isMute_tail (mute : isMute (c :: cs) = true) : isMute cs = true := by
  by_cases bang : c = '!'
  · subst bang
    cases cs with
    | nil => rfl
    | cons =>
      rw [isMute_bang, Bool.and_eq_true] at mute
      exact mute.2
  · rw [isMute_plain bang, Bool.and_eq_true] at mute
    exact mute.2

theorem isMute_behind (mute : isMute (a ++ b) = true) : isMute b = true := by
  induction a with
  | nil => exact mute
  | cons _ _ ih => exact ih (isMute_tail mute)

theorem isMute_head (mute : isMute (c :: cs) = true) : c = '!' ∨ c ∉ marks := by
  by_cases bang : c = '!'
  · exact .inl bang
  · rw [isMute_plain bang, Bool.and_eq_true] at mute
    exact .inr (by simpa using mute.1)

theorem openingLength?_mute (mute : isMute cs = true) (solid : cs ≠ []) (t : List Char) : Source.openingLength? (cs ++ t) = none := by
  obtain ⟨c, cs, rfl⟩ := exists_cons_of_ne_nil solid
  by_cases bang : c = '!'
  · subst bang
    cases cs with
    | nil => exact absurd mute (by decide)
    | cons d =>
      rw [isMute_bang, Bool.and_eq_true, Bool.and_eq_true] at mute
      obtain ⟨⟨apart, plain⟩, -⟩ := mute
      have apart : isSpace d = false := by simpa using apart
      have plain : d ≠ '\x7b' := by simpa using plain
      simp [Source.openingLength?, apart, plain]
  · simp [Source.openingLength?, bang]

theorem isMute_append (one : isMute a = true) (two : isMute b = true) : isMute (a ++ b) = true := by
  induction a with
  | nil => exact two
  | cons c a ih =>
    have later := ih (isMute_tail one)
    by_cases bang : c = '!'
    · subst bang
      cases a with
      | nil => exact absurd one (by decide)
      | cons =>
        rw [isMute_bang, Bool.and_eq_true] at one
        rw [cons_append, cons_append, isMute_bang, one.1, Bool.true_and]
        exact later
    · rw [isMute_plain bang, Bool.and_eq_true] at one
      rw [cons_append, isMute_plain bang, one.1, Bool.true_and]
      exact later

theorem isMute_of_all (plain : ∀ c ∈ cs, c ∉ marks) : isMute cs = true := by
  induction cs with
  | nil => rfl
  | cons c _ ih =>
    have apart := plain c mem_cons_self
    have bang : c ≠ '!' := fun same => apart (same ▸ by decide)
    rw [isMute_plain bang, ih fun d mem => plain d (mem_cons_of_mem c mem), Bool.and_true]
    simpa using apart

theorem isMute_moved (n : Nat) (mute : isMute cs = true) : isMute (moved n cs) = true := by
  induction cs with
  | nil => rfl
  | cons c cs ih =>
    have later := ih (isMute_tail mute)
    by_cases feed : c = '\n'
    · have blanks : isMute ('\n' :: replicate n ' ') = true := isMute_of_all fun d mem => by
        rcases mem_cons.mp mem with rfl | mem
        · decide
        · rw [eq_of_mem_replicate mem]
          decide
      rw [Expression.Lexer.moved_cons, if_pos feed]
      exact isMute_append blanks later
    · rw [Expression.Lexer.moved_cons, if_neg feed, singleton_append]
      by_cases bang : c = '!'
      · subst bang
        cases cs with
        | nil => exact absurd mute (by decide)
        | cons d cs =>
          rw [isMute_bang, Bool.and_eq_true] at mute
          obtain ⟨_, same⟩ := head?_eq_some_iff.mp ((Expression.Lexer.head?_moved n (d :: cs)).trans head?_cons)
          rw [same] at later ⊢
          rw [isMute_bang, mute.1, later]
          rfl
      · rw [isMute_plain bang, Bool.and_eq_true] at mute
        rw [isMute_plain bang, mute.1, later]
        rfl

theorem blockHere_mute (plain : Plain name) (mute : isMute cs = true)
    (ends : Shut t ∨ ∃ c ∈ cs.getLast?, c ∈ stops) : blockHere name (cs ++ t) = none := by
  have last (c : Char) (head : c ∈ cs.getLast?) (stop : c ∈ stops) : ¬ cs <+: name := fun mem =>
    plain c (mem.subset (mem_of_getLast? head)) stop
  rw [blockHere_eq]
  split
  case isFalse => rfl
  case isTrue begins =>
    obtain ⟨behind, joined⟩ := isPrefixOf_iff_prefix.mp begins
    rw [← joined, drop_left, map_eq_none_iff]
    -- the name ends in the text, or with it, or it goes on behind it
    obtain ⟨more, whole, rfl⟩ | ⟨more, whole, rest⟩ := append_eq_append_iff.mp joined
    · cases more with
      | nil =>
        rw [append_nil] at whole
        rcases ends with shut | ⟨c, head, stop⟩
        · exact @openingLength?_append _ [] shut
        · exact absurd (whole ▸ prefix_rfl) (last c head stop)
      | cons c more =>
        rw [whole] at mute
        exact openingLength?_mute (isMute_behind mute) (cons_ne_nil c more) t
    · rcases ends with shut | ⟨c, head, stop⟩
      · cases more with
        | nil =>
          rw [nil_append] at rest
          exact rest ▸ @openingLength?_append _ [] shut
        | cons c =>
          have stop := shut.stopped c (by rw [rest]; rfl)
          exact absurd stop (plain c (by simp [whole]))
      · exact absurd ⟨more, whole.symm⟩ (last c head stop)

theorem finds_mute (plain : Plain name) (mute : isMute cs = true) (ends : cs = [] ∨ Shut t ∨ ∃ c ∈ cs.getLast?, c ∈ stops)
    (same : spot.rest = cs ++ t) (finds : Finds name (spot.skip cs.length) later) : Finds name spot later := by
  induction cs generalizing spot with
  | nil =>
    rw [length_nil, Spot.skip_zero] at finds
    exact finds
  | cons c cs ih =>
    have ends := ends.resolve_left (cons_ne_nil c cs)
    have there : spot.rest = c :: (cs ++ t) := same
    have apart (d : Char) (mark : d ∈ marks) (other : d ≠ '!') : c ≠ d := fun same =>
      (isMute_head mute).elim (fun bang => other (same ▸ bang)) fun none => none (same ▸ mark)
    have next (d : Char) (mark : d ∈ marks) (other : d ≠ '!') (letter : c = 'r') : ((cs ++ t).head? == some d) = false := by
      refine beq_eq_false_iff_ne.mpr fun head => ?_
      cases cs with
      | cons =>
        obtain rfl := Option.some.inj head
        exact (isMute_head (isMute_tail mute)).elim other fun none => none mark
      | nil =>
        rcases ends with shut | ⟨e, last, stop⟩
        · have stop := shut.stopped d head
          simp only [marks, mem_cons, not_mem_nil, or_false] at mark
          rcases mark with rfl | rfl | rfl | rfl | rfl <;> exact absurd stop (by decide)
        · obtain rfl := Option.some.inj last
          exact absurd stop (by rw [letter]; decide)
    have shown : isSkipped spot.previous c (cs ++ t) = false := by
      have one := apart '"' (by decide) (by decide)
      have two := apart '\'' (by decide) (by decide)
      have three := apart '/' (by decide) (by decide)
      rw [isSkipped_eq]
      by_cases letter : c = 'r'
      · rw [next '"' (by decide) (by decide) letter, next '#' (by decide) (by decide) letter, letter, Bool.or_self, Bool.and_false]
        rfl
      · simp [one, two, three, letter]
    have none : blockHere name spot.rest = none := by
      rw [same]
      exact blockHere_mute plain mute ends
    refine Finds.congr (ih (isMute_tail mute) ?_ ?_ ?_) (next_step there (.inr (.inr none)))
    · cases cs with
      | nil => exact .inl rfl
      | cons => exact .inr (ends.imp_right fun ⟨e, last, stop⟩ => ⟨e, by rwa [getLast?_cons_cons] at last, stop⟩)
    · rw [advance_eq_one shown, Spot.rest_skip, there]
      rfl
    · rw [advance_eq_one shown, Spot.skip_skip, Nat.add_comm]
      exact finds

theorem Crosses.of_mute (plain : Plain name) (mute : isMute cs = true) : Crosses name cs [] :=
  fun _ _ _ same _ shut finds => finds_mute plain mute (.inr (.inl shut)) same finds

theorem inWord_skip (same : spot.rest = cs ++ t) (last : c ∈ cs.getLast?) : (spot.skip cs.length).inWord = isWordChar c := by
  rw [Spot.inWord, Spot.skip, same, take_left, mem_def.mp last]
  rfl

theorem not_isWordChar_stop (stop : c ∈ stops) : isWordChar c = false := by
  have all : stops.all (!isWordChar ·) = true := by decide
  simpa using all_eq_true.mp all c stop

theorem last_moved (n : Nat) (ends : ∀ c ∈ cs.getLast?, c ∈ stops) : ∀ c ∈ (moved n cs).getLast?, c ∈ stops := by
  rcases eq_nil_or_concat' cs with rfl | ⟨front, d, rfl⟩
  · exact nofun
  · have stop := ends d (by simp)
    intro c last
    rw [Expression.Lexer.moved_append, Expression.Lexer.moved_cons, show moved n [] = [] from rfl, append_nil,
      getLast?_append_of_ne_nil _ (by split <;> simp)] at last
    have mem := mem_of_getLast? last
    split at mem
    · rcases mem_cons.mp mem with rfl | mem
      · decide
      · rw [eq_of_mem_replicate mem]
        decide
    · rwa [mem_singleton.mp mem]

theorem CrossesOn.of_mute (plain : Plain name) (mute : isMute cs = true) (ends : ∀ c ∈ cs.getLast?, c ∈ stops) : CrossesOn name cs [] := by
  intro spot t same apart
  rcases eq_nil_or_concat' cs with rfl | ⟨front, c, rfl⟩
  · exact crossesOn_nil spot t same apart
  · have last : c ∈ (front ++ [c]).getLast? := by simp
    have stop := ends c last
    exact ⟨(inWord_skip same last).trans (not_isWordChar_stop stop),
      fun later finds => finds_mute plain mute (.inr (.inr ⟨c, last, stop⟩)) same finds⟩

theorem CrossesOn.of_string {body : List Char} (closed : Template.Code.stringLength? body = some body.length) :
    CrossesOn name ('"' :: body) [] := by
  intro spot t same apart
  have there : spot.rest = '"' :: (body ++ t) := same
  obtain ⟨length, -⟩ := string_append (by rw [closed]; rfl) t
  obtain ⟨whole, _, c, size, last, letter⟩ := Source.stringLength?_closes closed
  constructor
  · rw [inWord_skip same (c := c), letter]
    rw [getLast?_cons, getLast?_eq_getElem?, size, Nat.add_sub_cancel, last]
    rfl
  · intro later finds
    refine Finds.congr ?_ (next_step there (.inl rfl))
    rw [show advance spot.previous '"' (body ++ t) = 1 + string (body ++ t) from rfl, length, whole, Nat.add_comm]
    exact finds

end Passing
end LiveMarkup.Codegen
