import LiveMarkup.Codegen.Site
import LiveMarkup.Expression.Lexer
import LiveMarkup.Template.Code
import Mathlib.Data.List.Basic
import Mathlib.Data.List.TakeWhile

/-!
The search for template blocks and the tokens of a source text. A text is cut into tokens: names, numbers, literals,
lifetimes, comments, blanks and punctuation. Searched from behind any token, the text gives the first block that begins
behind it: the name as a token of its own, `!`, blanks and an opening brace. Only where the letters at the end of another
token are the name, or are read for the mark of a raw string, does the search go astray.
-/

namespace LiveMarkup.Codegen
open Option hiding any_eq_true map_map or_assoc
open Site (isWordChar isSpace)
open List Option

namespace Source

inductive Kind where
  | blank | comment | word | rawName | lifetime | number | literal | punct
  deriving DecidableEq

structure Token where
  kind : Kind
  text : List Char
  deriving DecidableEq

def blanks : List Char :=
  ['\t', '\n', '\x0b', '\x0c', '\r', ' ', '\u0085', '\u200e', '\u200f', '\u2028', '\u2029']

def isBlank (c : Char) : Bool := blanks.contains c

def isWordStart (c : Char) : Bool := isWordChar c && !c.isDigit

def wordAt (cs : List Char) : List Char :=
  match cs with
  | [] => []
  | c :: _ => if isWordStart c then cs.takeWhile isWordChar else []

def commentLength? : List Char → Option Nat
  | '/' :: '/' :: rest => some (2 + (rest.takeWhile (· ≠ '\n')).length)
  | '/' :: '*' :: rest => (Expression.Lexer.blockComment? 0 rest).map fun behind => 2 + (rest.length - behind.length)
  | _ => none

def charLength? : List Char → Option Nat
  | '\\' :: _ :: rest =>
    let inside := (rest.takeWhile (· ≠ '\'')).length
    if inside < rest.length then some (inside + 3) else none
  | _ :: '\'' :: _ => some 2
  | _ => none

def rawLength? (cs : List Char) : Option Nat :=
  let hashes := (cs.takeWhile (· = '#')).length
  match cs.drop hashes with
  | '"' :: body => (Template.Code.rawLength? hashes body).map (hashes + 1 + ·)
  | _ => none

def quotationLength? : List Char → Option Nat
  | '"' :: rest => (Template.Code.stringLength? rest).map (1 + ·)
  | '\'' :: rest => (charLength? rest).map (1 + ·)
  | 'r' :: rest => (rawLength? rest).map (1 + ·)
  | 'b' :: '"' :: rest => (Template.Code.stringLength? rest).map (2 + ·)
  | 'b' :: '\'' :: rest => (charLength? rest).map (2 + ·)
  | 'b' :: 'r' :: rest => (rawLength? rest).map (2 + ·)
  | _ => none

def isDigitOrGap (c : Char) : Bool := c.isDigit || c == '_'

def isHexOrGap (c : Char) : Bool :=
  isDigitOrGap c || ['a', 'b', 'c', 'd', 'e', 'f', 'A', 'B', 'C', 'D', 'E', 'F'].contains c

def signLength : List Char → Nat
  | '+' :: _ => 1
  | '-' :: _ => 1
  | _ => 0

/-- The length of an exponent, which has a digit; nothing where there is no exponent. -/
def exponentLength? (cs : List Char) : Option Nat :=
  match cs with
  | [] => some 0
  | c :: rest =>
    if c = 'e' ∨ c = 'E' then
      let digits := (rest.drop (signLength rest)).takeWhile isDigitOrGap
      if digits.any Char.isDigit then some (1 + (signLength rest + digits.length)) else none
    else some 0

/-- The length of the point, its digits and the exponent behind whole digits. A point in front of a name or of
another point belongs to what is behind it. -/
def fractionLength? (cs : List Char) : Option Nat :=
  match cs with
  | '.' :: rest =>
    if (rest.head?.map fun c => c == '.' || isWordStart c).getD false then some 0
    else
      let digits := (rest.takeWhile isDigitOrGap).length
      (exponentLength? (rest.drop digits)).map (1 + digits + ·)
  | _ => exponentLength? cs

def numberLength? (cs : List Char) : Option Nat :=
  let based (isDigit : Char → Bool) (digits : List Char) :=
    let length := (digits.takeWhile isDigit).length
    if (digits.take length).any (· ≠ '_') then some (2 + length) else none
  match cs with
  | '0' :: 'x' :: rest => based isHexOrGap rest
  | '0' :: 'o' :: rest => based isDigitOrGap rest
  | '0' :: 'b' :: rest => based isDigitOrGap rest
  | c :: _ =>
    let whole := (cs.takeWhile isDigitOrGap).length
    if c.isDigit then (fractionLength? (cs.drop whole)).map (whole + ·) else none
  | [] => none

def withSuffix (cs : List Char) (n : Nat) : Nat := n + (wordAt (cs.drop n)).length

def markAt : List Char → List Char
  | 'r' :: '#' :: _ => ['r', '#']
  | '\'' :: 'r' :: '#' :: _ => ['\'', 'r', '#']
  | '\'' :: _ => ['\'']
  | _ => []

def kindOf (mark : List Char) : Kind :=
  if mark = [] then .word else if mark = ['r', '#'] then .rawName else .lifetime

/-- What may not stand directly behind a word: it would make the word the mark of a literal. -/
def stopsOf (mark : List Char) : List Char :=
  if mark = [] then ['"', '\'', '#'] else if mark = ['\''] then ['\'', '#'] else []

def nameLength? (cs : List Char) : Option (Kind × Nat) :=
  let mark := markAt cs
  let word := wordAt (cs.drop mark.length)
  let n := mark.length + word.length
  if word = [] ∨ (cs.drop n).head?.any (stopsOf mark).contains then none else some (kindOf mark, n)

def punctuation : List Char :=
  [';', ',', '.', '(', ')', '[', ']', '\x7b', '\x7d', '@', '#', '~', '?', ':', '$', '=', '!', '<', '>', '-', '&', '|', '+',
    '*', '/', '^', '%']

/-- The kind and the length of the token at the start of a text. -/
def tokenLength? (cs : List Char) : Option (Kind × Nat) :=
  match cs with
  | [] => none
  | c :: rest =>
    if isBlank c then some (.blank, 1)
    else if c = '/' ∧ (rest.head? = some '/' ∨ rest.head? = some '*') then (commentLength? cs).map (.comment, ·)
    else if punctuation.contains c then some (.punct, 1)
    else match quotationLength? cs with
      | some n => some (.literal, withSuffix cs n)
      | none => match numberLength? cs with
        | some n => some (.number, withSuffix cs n)
        | none => nameLength? cs

def Lexed (cs : List Char) : List Token → Prop
  | [] => cs = []
  | token :: tokens =>
    tokenLength? cs = some (token.kind, token.text.length) ∧ token.text = cs.take token.text.length ∧
      Lexed (cs.drop token.text.length) tokens

end Source

variable {previous : Option Char}

section Steps

variable {name : List Char} {spot : Spot}

namespace Spot

theorem skip_zero (spot : Spot) : spot.skip 0 = spot := by
  simp [skip, Template.Position.pastAll]

theorem skip_skip (spot : Spot) (n m : Nat) : (spot.skip n).skip m = spot.skip (n + m) := by
  simp only [skip, take_add, drop_drop, Spot.mk.injEq, and_true]
  refine ⟨foldl_append.symm, ?_⟩
  rw [getLast?_append, Option.or_assoc]

@[simp] theorem rest_skip (spot : Spot) (n : Nat) : (spot.skip n).rest = spot.rest.drop n := rfl

theorem previous_skip {n : Nat} (mem : n < spot.rest.length) : (spot.skip (n + 1)).previous = spot.rest[n]? := by
  have last : (spot.rest.take (n + 1)).getLast? = spot.rest[n]? := by
    rw [getLast?_eq_getElem?, length_take, Nat.min_eq_left mem, getElem?_take]
    simp
  simp [skip, last, mem]

def inWord (spot : Spot) : Bool := (spot.previous.map isWordChar).getD false

end Spot

namespace Site

variable {rest : List Char} {c : Char}

theorem advance_pos (previous : Option Char) (c : Char) (rest : List Char) : 0 < advance previous c rest := by
  simp only [advance]
  split
  case h_4 =>
    split <;> omega
  all_goals omega

theorem advance_eq_one (shown : isSkipped previous c rest = false) : advance previous c rest = 1 := by
  unfold advance
  unfold isSkipped at shown
  split at shown <;> simp_all

theorem nextFrom_eq_next {fuel : Nat} (enough : spot.rest.length < fuel) : nextFrom name fuel spot = next name spot := by
  induction hn : spot.rest.length using Nat.strongRecOn generalizing fuel spot with
  | _ n ih =>
    subst hn
    obtain ⟨fuel, rfl⟩ : ∃ k, fuel = k + 1 := ⟨fuel - 1, by omega⟩
    rw [next, nextFrom, nextFrom]
    cases found : spot.rest with
    | nil => rfl
    | cons c rest =>
      have less : (spot.skip (advance spot.previous c rest)).rest.length < spot.rest.length := by
        have pos := advance_pos spot.previous c rest
        simp only [Spot.rest_skip, length_drop, found, length_cons]
        omega
      have same (fuel : Nat) (enough : (spot.skip (advance spot.previous c rest)).rest.length < fuel) :
          nextFrom name fuel (spot.skip (advance spot.previous c rest)) =
            next name (spot.skip (advance spot.previous c rest)) := ih _ less enough rfl
      rw [found] at less
      simp only [same fuel (by rw [found] at enough; omega), same (c :: rest).length less]

theorem next_nil (ended : spot.rest = []) : next name spot = none := by
  rw [next, nextFrom, ended]

theorem next_step (there : spot.rest = c :: rest)
    (none : isSkipped spot.previous c rest = true ∨ spot.inWord = true ∨ blockHere name spot.rest = none) :
    next name spot = next name (spot.skip (advance spot.previous c rest)) := by
  have less : (spot.skip (advance spot.previous c rest)).rest.length < spot.rest.length := by
    have pos := advance_pos spot.previous c rest
    rw [Spot.rest_skip, length_drop, there, length_cons]
    omega
  rw [there] at none
  rw [next, nextFrom, there]
  dsimp only
  rw [← nextFrom_eq_next less, there]
  split
  · rename_i found
    obtain skipped | mem | none := none
    · simp [skipped] at found
    · have mem : (spot.previous.map isWordChar).getD false = true := mem
      simp [mem] at found
    · simp [none] at found
  · rfl

theorem next_here {n : Nat} (there : spot.rest = c :: rest) (shown : isSkipped spot.previous c rest = false)
    (apart : spot.inWord = false) (begins : blockHere name spot.rest = some n) : next name spot = some (spot, spot.skip n) := by
  have apart : (spot.previous.map isWordChar).getD false = false := apart
  rw [there] at begins
  rw [next, nextFrom, there]
  simp [shown, apart, begins]

def Dull (name : List Char) (spot : Spot) : Prop :=
  ∀ c rest, spot.rest = c :: rest →
    isSkipped spot.previous c rest = false ∧ (spot.inWord = true ∨ blockHere name spot.rest = none)

theorem next_skip_one (dull : Dull name spot) : next name (spot.skip 1) = next name spot := by
  cases there : spot.rest with
  | nil => rw [next_nil there, next_nil (by simp [there])]
  | cons c rest =>
    obtain ⟨shown, none⟩ := dull c rest there
    rw [next_step there (.inr none), advance_eq_one shown]

theorem next_skip_of_dull {n : Nat} (dull : ∀ i < n, Dull name (spot.skip i)) :
    next name (spot.skip n) = next name spot := by
  induction n with
  | zero => rw [Spot.skip_zero]
  | succ n ih =>
    rw [← Spot.skip_skip, next_skip_one (dull n n.lt_succ_self), ih fun i mem => dull i (by omega)]

end Site
end Steps

section Words

namespace Source

def ending (text : List Char) : List Char := (text.reverse.takeWhile isWordChar).reverse

/-- Whether the search reads a word for the mark of a raw string. -/
def isRawMark (word : List Char) : Bool := word == ['r'] || ['b', 'r'].isSuffixOf word

def openingLength? : List Char → Option Nat
  | '!' :: rest =>
    let blanks := (rest.takeWhile isSpace).length
    if (rest.drop blanks).head? = some '\x7b' then some (1 + blanks) else none
  | _ => none

/-- Where a text is passed over without harm: the word that it ends in is not the name in front of an opening, and is not
read for the mark of a raw string. -/
structure Harmless (name text rest : List Char) : Prop where
  other : ending text = name → openingLength? rest = none
  unmarked : isRawMark (ending text) = true → rest.head? ≠ some '"' ∧ rest.head? ≠ some '#'

def isNumberChar (c : Char) : Bool := isWordChar c || c == '.' || c == '+' || c == '-'

theorem ending_append {word : List Char} (letters : ∀ c ∈ word, isWordChar c = true) (lead : List Char) :
    ending (lead ++ word) = ending lead ++ word := by
  rw [ending, ending, reverse_append, takeWhile_append_of_pos (by simpa using letters), reverse_append,
    reverse_reverse]

theorem ending_word {word : List Char} (letters : ∀ c ∈ word, isWordChar c = true) : ending word = word :=
  ending_append letters []

theorem Harmless.word {name mark word rest : List Char} (letters : ∀ c ∈ word, isWordChar c = true) (none : ending mark = [])
    (harmless : Harmless name (mark ++ word) rest) : Harmless name word rest := by
  have same : ending (mark ++ word) = ending word := by
    rw [ending_append letters, none, nil_append, ending_word letters]
  exact ⟨same ▸ harmless.other, same ▸ harmless.unmarked⟩

theorem ending_eq_nil {lead : List Char} (apart : (lead.getLast?.map isWordChar).getD false = false) : ending lead = [] := by
  rcases eq_nil_or_concat' lead with rfl | ⟨front, c, rfl⟩
  · rfl
  · have stop : isWordChar c = false := by simpa using apart
    simp [ending, stop]

end Source

open Source

variable {name : List Char} {spot : Spot}

structure IsName (name : List Char) : Prop where
  solid : name ≠ []
  letters : ∀ c ∈ name, isWordChar c = true

namespace Spot

def AtEdge (spot : Spot) : Prop := spot.inWord = true → ∀ c ∈ spot.rest.head?, isWordChar c = false

end Spot

namespace Site

variable {rest : List Char}

theorem blockHere_eq (name cs : List Char) : blockHere name cs =
    if name.isPrefixOf cs then (openingLength? (cs.drop name.length)).map (name.length + ·) else none := by
  rw [blockHere]
  generalize cs.drop name.length = behind
  split
  · rcases behind with _ | ⟨c, rest⟩
    · rfl
    · by_cases bang : c = '!'
      · subst bang
        simp only [openingLength?]
        split <;> simp [Nat.add_assoc]
      · simp [openingLength?, bang]
  · rfl

theorem blockHere_eq_none (named : IsName name) (text : List Char) (plain : ∀ c ∈ text, isNumberChar c = true)
    (whole : ∀ c ∈ rest.head?, isWordChar c = false) (other : text = name → openingLength? rest = none) :
    blockHere name (text ++ rest) = none := by
  rw [blockHere_eq]
  split
  case isFalse => rfl
  case isTrue begins =>
    obtain ⟨_, joined⟩ := isPrefixOf_iff_prefix.mp begins
    rw [← joined, drop_left, map_eq_none_iff]
    obtain ⟨more, split, rfl⟩ | ⟨more, split, rfl⟩ := append_eq_append_iff.mp joined
    · cases more with
      | nil => exact other (by simpa using split)
      | cons d =>
        have digit := plain d (by rw [split]; simp)
        have letter : d ≠ '!' := by
          rintro rfl
          exact absurd digit (by decide)
        simp [openingLength?, letter]
    · cases more with
      | nil => exact other (by simpa using split.symm)
      | cons d =>
        have letter := named.letters d (by simp [split])
        have stop := whole d (by simp)
        exact absurd letter (by simp [stop])

theorem isSkipped_of_numberChar {c : Char} (plain : isNumberChar c = true)
    (skipped : isSkipped previous c rest = true) :
    c = 'r' ∧ ((previous.map isWordChar).getD false = false ∨ previous = some 'b') ∧
      (rest.head? = some '"' ∨ rest.head? = some '#') := by
  unfold isSkipped at skipped
  split at skipped
  · exact absurd plain (by decide)
  · exact absurd plain (by decide)
  · exact absurd plain (by decide)
  · simpa using skipped
  · exact absurd plain (by decide)
  · exact absurd skipped (by simp)

theorem next_skip_numberChars {text : List Char} (named : IsName name) (there : spot.rest = text ++ rest)
    (plain : ∀ c ∈ text, isNumberChar c = true) (edge : spot.AtEdge) (whole : ∀ c ∈ rest.head?, isWordChar c = false)
    (harmless : Harmless name text rest) : next name (spot.skip text.length) = next name spot := by
  refine next_skip_of_dull fun i mem c tail here => ?_
  -- the text on both sides of the spot, and what is in front of it
  obtain ⟨lead, later, rfl, rfl⟩ : ∃ lead later, text = lead ++ c :: later ∧ lead.length = i := by
    refine ⟨text.take i, text.drop (i + 1), ?_, by simp; omega⟩
    rw [Spot.rest_skip, there, drop_append_of_le_length (by omega), drop_eq_getElem_cons mem] at here
    rw [← (cons.inj here).1, ← drop_eq_getElem_cons mem, take_append_drop]
  have tail_eq : tail = later ++ rest := by
    rw [Spot.rest_skip, there, append_assoc, drop_left] at here
    simpa using here.symm
  subst tail_eq
  have front : (spot.skip lead.length).previous = lead.getLast?.or spot.previous := by
    rw [Spot.skip, there, append_assoc, take_left]
  have alone (apart : (spot.skip lead.length).inWord = false) : ending lead = [] := by
    refine ending_eq_nil ?_
    rw [Spot.inWord, front] at apart
    cases last : lead.getLast? with
    | none => rfl
    | some => simpa [last] using apart
  constructor
  · rw [Bool.eq_false_iff]
    intro skipped
    obtain ⟨rfl, mark, quoted⟩ := isSkipped_of_numberChar (plain c (by simp)) skipped
    -- a quote or a hash can only stand behind the whole text
    cases later with
    | cons d =>
      have digit := plain d (by simp)
      obtain rfl | rfl : d = '"' ∨ d = '#' := by simpa using quoted
      · exact absurd digit (by decide)
      · exact absurd digit (by decide)
    | nil =>
      have last : ending (lead ++ ['r']) = ending lead ++ ['r'] := ending_append (forall_mem_singleton.mpr rfl) lead
      have free := harmless.unmarked <| by
        obtain apart | marked := mark
        · rw [last, alone apart]
          rfl
        · rw [last]
          rw [front] at marked
          rcases eq_nil_or_concat' lead with rfl | ⟨lead, p, rfl⟩
          · have within : spot.inWord = true := by
              rw [Spot.inWord, show spot.previous = some 'b' from marked]
              rfl
            have free := edge within 'r' (by simp [there])
            exact absurd free (by decide)
          · obtain rfl : p = 'b' := by simpa using marked
            rw [ending_append (forall_mem_singleton.mpr rfl) lead, append_assoc]
            simp [isRawMark]
      exact quoted.elim free.1 free.2
  · rw [Spot.rest_skip, there, append_assoc, drop_left, Classical.or_iff_not_imp_left, Bool.not_eq_true]
    intro apart
    refine blockHere_eq_none named (c :: later) (fun d mem => plain d (by simp_all)) whole ?_
    rintro rfl
    exact harmless.other (by rw [ending_append named.letters, alone apart, nil_append])

end Site
end Words

namespace Source

variable {cs : List Char} {n : Nat} {c : Char} {kind : Kind} {p : Char → Bool} {k : Nat}

theorem wordAt_append (cs : List Char) : wordAt cs ++ cs.drop (wordAt cs).length = cs := by
  unfold wordAt
  split
  · rfl
  · split
    · exact prefix_iff_eq_append.mp ( takeWhile_prefix _)
    · rfl

theorem wordAt_letters (mem : c ∈ wordAt cs) : isWordChar c = true := by
  unfold wordAt at mem
  split at mem
  · cases mem
  · split at mem
    · exact mem_takeWhile_imp mem
    · cases mem

theorem head?_drop_takeWhile (next : c ∈ (cs.drop (cs.takeWhile p).length).head?) : p c = false := by
  induction cs with
  | nil => cases next
  | cons d _ ih =>
    rw [takeWhile_cons] at next
    split at next
    · exact ih next
    · obtain rfl : d = c := by simpa using next
      simpa using ‹¬p d = true›

theorem take_wordAt (cs : List Char) : cs.take (wordAt cs).length = wordAt cs :=
  (congrArg (take _) (wordAt_append cs).symm).trans take_left

theorem wordAt_head (solid : wordAt cs ≠ []) : ∃ c rest, cs = c :: rest ∧ isWordChar c = true := by
  obtain ⟨c, word, start⟩ := exists_cons_of_ne_nil solid
  have text := wordAt_append cs
  refine ⟨c, word ++ cs.drop (wordAt cs).length, ?_, wordAt_letters (start ▸ mem_cons_self)⟩
  rw [← cons_append, ← start, text]

theorem wordAt_whole (solid : wordAt cs ≠ []) (next : c ∈ (cs.drop (wordAt cs).length).head?) : isWordChar c = false := by
  unfold wordAt at solid next
  split at next
  · contradiction
  · split at next
    · exact head?_drop_takeWhile next
    · rename_i start
      simp [start] at solid

theorem wordAt_eq_nil (none : wordAt cs = []) (next : c ∈ cs.head?) : isWordStart c = false := by
  cases cs with
  | nil => cases next
  | cons d =>
    obtain rfl : d = c := by simpa using next
    rw [Bool.eq_false_iff]
    intro start
    have letter : isWordChar d = true := by
      simp only [isWordStart, Bool.and_eq_true] at start
      exact start.1
    simp [wordAt, start, letter] at none

theorem take_withSuffix (cs : List Char) (n : Nat) : cs.take (withSuffix cs n) = cs.take n ++ wordAt (cs.drop n) := by
  rw [withSuffix, take_add, take_wordAt]

theorem withSuffix_whole (digits : ∀ c ∈ (cs.drop n).head?, c.isDigit = false) :
    ∀ c ∈ (cs.drop (withSuffix cs n)).head?, isWordChar c = false := by
  intro c next
  rw [withSuffix, ← drop_drop] at next
  by_cases none : wordAt (cs.drop n) = []
  · rw [none] at next
    have start := wordAt_eq_nil none next
    simpa [isWordStart, digits c next] using start
  · exact wordAt_whole none next

def Closes (cs : List Char) (n : Nat) : Prop := ∃ i c, n = i + 1 ∧ cs[i]? = some c ∧ isWordChar c = false

theorem Closes.cons (closes : Closes cs n) (c : Char) : Closes (c :: cs) (1 + n) := by
  obtain ⟨i, last, rfl, there, apart⟩ := closes
  exact ⟨i + 1, last, by omega, there, apart⟩

theorem stringLength?_closes (found : Template.Code.stringLength? cs = some n) : Site.string cs = n ∧ Closes cs n := by
  fun_induction Template.Code.stringLength? cs generalizing n with
  | case1 => cases found
  | case2 =>
    obtain rfl : 1 = n := by simpa using found
    exact ⟨rfl, 0, '"', rfl, rfl, rfl⟩
  | case3 c _ ih =>
    obtain ⟨m, inner, rfl⟩ := map_eq_some_iff.mp found
    obtain ⟨same, closes⟩ := ih inner
    refine ⟨by rw [Site.string, same, Nat.add_comm], ?_⟩
    rw [show m + 2 = 1 + (1 + m) by omega]
    exact (closes.cons c).cons '\\'
  | case4 c _ plain other ih =>
    obtain ⟨m, inner, rfl⟩ := map_eq_some_iff.mp found
    obtain ⟨same, closes⟩ := ih inner
    refine ⟨?_, Nat.add_comm m 1 ▸ closes.cons c⟩
    rw [Site.string.eq_4 _ _ other plain, same, Nat.add_comm]

theorem rawBody_closes {hashes : Nat} (found : Template.Code.rawLength? hashes cs = some n) :
    Site.rawBody hashes cs = n ∧ Closes cs n := by
  induction cs generalizing n with
  | nil => cases found
  | cons c cs ih =>
    rw [Template.Code.rawLength?] at found
    rw [Site.rawBody]
    split at found
    · rename_i ends
      obtain rfl : 1 + hashes = n := by simpa using found
      refine ⟨if_pos ends, ?_⟩
      cases hashes with
      | zero => exact ⟨0, '"', rfl, congrArg some ends.1, rfl⟩
      | succ hashes =>
        refine ⟨hashes + 1, '#', by omega, ?_, rfl⟩
        have last : (cs.take (hashes + 1))[hashes]? = some '#' := by simp [ends.2]
        simpa [getElem?_take] using last
    · rename_i goes
      obtain ⟨m, inner, rfl⟩ := map_eq_some_iff.mp found
      obtain ⟨same, closes⟩ := ih inner
      exact ⟨by rw [if_neg goes, same, Nat.add_comm], Nat.add_comm m 1 ▸ closes.cons c⟩

theorem Closes.drop (closes : Closes (cs.drop k) n) : Closes cs (k + n) := by
  obtain ⟨i, last, rfl, there, apart⟩ := closes
  exact ⟨k + i, last, by omega, by simpa using there, apart⟩

theorem rawLength?_closes (found : rawLength? cs = some n) :
    Site.rawString cs = n ∧ Closes cs n ∧ (cs.head? = some '"' ∨ cs.head? = some '#') := by
  rw [rawLength?] at found
  split at found
  · rename_i body behind
    obtain ⟨_, inner, rfl⟩ := Option.map_eq_some_iff.mp found
    obtain ⟨same, closes⟩ := rawBody_closes inner
    refine ⟨by simp only [Site.rawString, behind, same], ?_, ?_⟩
    · rw [Nat.add_assoc]
      exact Closes.drop (behind ▸ closes.cons '"')
    · cases cs with
      | nil => simp at behind
      | cons c =>
        by_cases hash : c = '#'
        · simp [hash]
        · simp only [takeWhile_cons, hash, decide_false] at behind
          simp_all
  · cases found

theorem charLength?_closes (found : charLength? cs = some n) : Site.charLiteral cs = n ∧ Closes cs n := by
  unfold charLength? at found
  split at found
  · rename_i c rest
    dsimp only at found
    split at found
    · rename_i mem
      obtain rfl := some.inj found
      refine ⟨?_, ?_⟩
      · simp only [Site.charLiteral, drop_one, tail_cons, length_cons, if_pos mem]
        omega
      · have quote : rest[(rest.takeWhile (· ≠ '\'')).length]? = some '\'' := by
          rw [getElem?_eq_getElem mem, some_inj]
          have stop := head?_drop_takeWhile (p := (· ≠ '\'')) (head?_drop.trans (getElem?_eq_getElem mem))
          simpa using stop
        exact ⟨_ + 2, '\'', rfl, by simpa using quote, rfl⟩
    · cases found
  · rename_i c rest other
    obtain rfl := some.inj found
    have plain : c ≠ '\\' := by
      rintro rfl
      simp at other
    refine ⟨?_, 1, '\'', rfl, rfl, rfl⟩
    unfold Site.charLiteral
    split <;> simp_all
  · cases found

theorem blockComment?_closes {depth : Nat} {behind : List Char}
    (found : Expression.Lexer.blockComment? depth cs = some behind) :
    Site.blockComment (depth + 1) cs + behind.length = cs.length ∧ Closes cs (Site.blockComment (depth + 1) cs) := by
  fun_induction Expression.Lexer.blockComment? depth cs with
  | case1 => cases found
  | case2 depth rest ih =>
    obtain ⟨_, closes⟩ := ih found
    rw [Site.blockComment]
    refine ⟨by simp only [length_cons]; omega, ?_⟩
    rw [show 2 + Site.blockComment (depth + 1 + 1) rest = 1 + (1 + Site.blockComment (depth + 1 + 1) rest) by omega]
    exact (closes.cons '*').cons '/'
  | case3 =>
    obtain rfl := some.inj found
    exact ⟨by simp [Site.blockComment]; omega, 1, '/', rfl, rfl, rfl⟩
  | case4 depth rest _ ih =>
    obtain ⟨_, closes⟩ := ih found
    rw [Site.blockComment, if_neg (by omega), show depth + 1 - 1 = depth - 1 + 1 by omega]
    refine ⟨by simp only [length_cons]; omega, ?_⟩
    rw [show 2 + Site.blockComment (depth - 1 + 1) rest = 1 + (1 + Site.blockComment (depth - 1 + 1) rest) by omega]
    exact (closes.cons '/').cons '*'
  | case5 _ c _ opens ends ih =>
    obtain ⟨_, closes⟩ := ih found
    rw [Site.blockComment.eq_4 _ _ _ opens ends]
    exact ⟨by simp only [length_cons]; omega, closes.cons c⟩

structure Numeral (cs : List Char) (n : Nat) : Prop where
  inside : n ≤ cs.length
  chars : ∀ c ∈ cs.take n, isNumberChar c = true
  ends : ∀ c ∈ (cs.drop n).head?, c.isDigit = false

theorem Numeral.digits (cs : List Char) (chars : ∀ c, p c = true → isNumberChar c = true)
    (digits : ∀ c, c.isDigit = true → p c = true) : Numeral cs (cs.takeWhile p).length := by
  refine ⟨(takeWhile_sublist _).length_le, fun c mem => ?_, fun c next => ?_⟩
  · rw [prefix_iff_eq_take.mp ( takeWhile_prefix _) |>.symm] at mem
    exact chars c (mem_takeWhile_imp mem)
  · have stop := head?_drop_takeWhile next
    rw [Bool.eq_false_iff]
    exact fun digit => by simp [digits c digit] at stop

theorem Numeral.add (mem : k ≤ cs.length) (chars : ∀ c ∈ cs.take k, isNumberChar c = true)
    (behind : Numeral (cs.drop k) n) : Numeral cs (k + n) := by
  refine ⟨?_, fun c there => ?_, fun c next => behind.ends c (by rwa [drop_drop])⟩
  · have room := behind.inside
    rw [length_drop] at room
    omega
  · rw [take_add] at there
    exact (mem_append.mp there).elim (chars c) (behind.chars c)

theorem Numeral.cons (behind : Numeral cs n) (digit : isNumberChar c = true) : Numeral (c :: cs) (1 + n) :=
  Numeral.add (by simp) (by simpa using digit) behind

theorem isNumberChar_digitOrGap (c : Char) (digit : isDigitOrGap c = true) : isNumberChar c = true := by
  simp only [isDigitOrGap, Bool.or_eq_true] at digit
  obtain digit | gap := digit
  · simp [isNumberChar, isWordChar, Char.isAlphanum, digit]
  · simp [isNumberChar, isWordChar, gap]

theorem isNumberChar_hexOrGap (c : Char) (digit : isHexOrGap c = true) : isNumberChar c = true := by
  rw [isHexOrGap, Bool.or_eq_true] at digit
  obtain digit | letter := digit
  · exact isNumberChar_digitOrGap c digit
  · have all : ['a', 'b', 'c', 'd', 'e', 'f', 'A', 'B', 'C', 'D', 'E', 'F'].all isNumberChar := by decide
    exact all_eq_true.mp all c (contains_iff_mem.mp letter)

theorem digits_numeral (cs : List Char) : Numeral cs (cs.takeWhile isDigitOrGap).length :=
  .digits cs isNumberChar_digitOrGap fun c digit => by simp [isDigitOrGap, digit]

theorem exponentLength?_numeral (behind : ∀ c ∈ cs.head?, c.isDigit = false) (found : exponentLength? cs = some n) :
    Numeral cs n := by
  have nothing : Numeral cs 0 := ⟨by simp, by simp, by simpa using behind⟩
  unfold exponentLength? at found
  split at found
  · obtain rfl := some.inj found
    exact nothing
  · rename_i c rest
    split at found
    · rename_i letter
      obtain ⟨-, length⟩ := ite_none_right_eq_some.mp found
      obtain rfl := some.inj length
      have signed : Numeral rest (signLength rest + ((rest.drop (signLength rest)).takeWhile isDigitOrGap).length) := by
        refine .add ?_ ?_ (digits_numeral _)
        all_goals unfold signLength; split <;> simp [isNumberChar]
      exact signed.cons (by obtain rfl | rfl := letter <;> rfl)
    · obtain rfl := some.inj found
      exact nothing

theorem fractionLength?_numeral (behind : ∀ c ∈ cs.head?, c.isDigit = false) (found : fractionLength? cs = some n) :
    Numeral cs n := by
  unfold fractionLength? at found
  split at found
  · rename_i rest
    split at found
    · obtain rfl := some.inj found
      exact ⟨by simp, by simp, by simp⟩
    · obtain ⟨_, inner, rfl⟩ := map_eq_some_iff.mp found
      have whole := digits_numeral rest
      have exponent := exponentLength?_numeral whole.ends inner
      rw [Nat.add_assoc]
      exact (Numeral.add whole.inside whole.chars exponent).cons rfl
  · exact exponentLength?_numeral behind found

theorem numberLength?_numeral (found : numberLength? cs = some n) : Numeral cs n ∧ 0 < n := by
  have based {p : Char → Bool} {mark : Char} {digits : List Char} (letter : isNumberChar mark = true)
      (numeral : Numeral digits (digits.takeWhile p).length)
      (found : (if (digits.take (digits.takeWhile p).length).any (· ≠ '_') then some (2 + (digits.takeWhile p).length)
        else none) = some n) : Numeral ('0' :: mark :: digits) n ∧ 0 < n := by
    obtain ⟨-, length⟩ := ite_none_right_eq_some.mp found
    obtain rfl := some.inj length
    refine ⟨?_, by omega⟩
    rw [show 2 + (digits.takeWhile p).length = 1 + (1 + (digits.takeWhile p).length) by omega]
    exact (numeral.cons letter).cons rfl
  unfold numberLength? at found
  split at found
  · refine based rfl (.digits _ isNumberChar_hexOrGap fun c digit => ?_) found
    simp [isHexOrGap, isDigitOrGap, digit]
  · exact based rfl (digits_numeral _) found
  · exact based rfl (digits_numeral _) found
  · rename_i c rest _ _ _
    obtain ⟨digit, inner⟩ := ite_none_right_eq_some.mp found
    obtain ⟨_, fraction, rfl⟩ := map_eq_some_iff.mp inner
    have whole := digits_numeral (c :: rest)
    have first : 0 < ((c :: rest).takeWhile isDigitOrGap).length := by simp [isDigitOrGap, digit]
    exact ⟨.add whole.inside whole.chars (fractionLength?_numeral whole.ends fraction), by omega⟩
  · cases found

theorem quotationLength?_closes (found : quotationLength? cs = some n) : Closes cs n := by
  have two {c d : Char} {rest : List Char} {n : Nat} (closes : Closes rest n) : Closes (c :: d :: rest) (2 + n) := by
    rw [show 2 + n = 1 + (1 + n) by omega]
    exact (closes.cons d).cons c
  unfold quotationLength? at found
  split at found
  all_goals try obtain ⟨m, inner, rfl⟩ := map_eq_some_iff.mp found
  · exact (stringLength?_closes inner).2.cons _
  · exact (charLength?_closes inner).2.cons _
  · exact (rawLength?_closes inner).2.1.cons _
  · exact two (stringLength?_closes inner).2
  · exact two (charLength?_closes inner).2
  · exact two (rawLength?_closes inner).2.1
  · cases found

theorem markAt_append (cs : List Char) : markAt cs ++ cs.drop (markAt cs).length = cs := by
  unfold markAt
  split <;> rfl

theorem markAt_mem (cs : List Char) : markAt cs ∈ [[], ['r', '#'], ['\'', 'r', '#'], ['\'']] := by
  unfold markAt
  split <;> decide

/-- A name is a mark and a word that is as long as can be. -/
structure Named (cs : List Char) (kind : Kind) (n : Nat) (mark word behind : List Char) : Prop where
  text : cs = mark ++ (word ++ behind)
  marked : mark ∈ [[], ['r', '#'], ['\'', 'r', '#'], ['\'']]
  sort : kind = kindOf mark
  length : n = mark.length + word.length
  solid : word ≠ []
  cut : wordAt (word ++ behind) = word
  whole : ∀ c ∈ behind.head?, isWordChar c = false
  free : ∀ c ∈ behind.head?, c ∉ stopsOf mark

theorem Named.letters {mark word behind : List Char} (read : Named cs kind n mark word behind) :
    ∀ c ∈ word, isWordChar c = true := by
  rw [← read.cut]
  exact fun c => wordAt_letters

theorem nameLength?_eq_some (found : nameLength? cs = some (kind, n)) :
    ∃ mark word behind, Named cs kind n mark word behind := by
  obtain ⟨free, same⟩ := ite_none_left_eq_some.mp found
  obtain ⟨rfl, rfl⟩ := Prod.mk.inj (some.inj same)
  rw [not_or, Option.any_eq_true] at free
  have text := wordAt_append (cs.drop (markAt cs).length)
  rw [drop_drop] at text
  refine ⟨markAt cs, wordAt (cs.drop (markAt cs).length),
    cs.drop ((markAt cs).length + (wordAt (cs.drop (markAt cs).length)).length), ?_, markAt_mem cs, rfl, rfl, free.1, ?_,
    fun c next => ?_, fun c next stop => free.2 ⟨c, next, by simpa using stop⟩⟩
  · rw [text, markAt_append]
  · rw [text]
  · rw [← drop_drop] at next
    exact wordAt_whole free.1 next

inductive Cut : List Char → Kind → Nat → Prop
  | blank {c : Char} {rest : List Char} (blank : isBlank c = true) : Cut (c :: rest) .blank 1
  | comment {cs : List Char} {n : Nat} (found : commentLength? cs = some n) : Cut cs .comment n
  | punct {c : Char} {rest : List Char} (mark : c ∈ punctuation)
      (apart : c = '/' → rest.head? ≠ some '/' ∧ rest.head? ≠ some '*') : Cut (c :: rest) .punct 1
  | literal {cs : List Char} {n : Nat} (found : quotationLength? cs = some n) : Cut cs .literal (withSuffix cs n)
  | number {cs : List Char} {n : Nat} (found : numberLength? cs = some n) : Cut cs .number (withSuffix cs n)
  | name {cs : List Char} {kind : Kind} {n : Nat} (found : nameLength? cs = some (kind, n)) : Cut cs kind n

theorem blank_apart (blank : isBlank c = true) : isWordChar c = false ∧ (c ≠ '"' ∧ c ≠ '\'') ∧ c ≠ '/' := by
  have all : blanks.all fun c => !isWordChar c && (c != '"' && c != '\'') && c != '/' := by decide
  simpa [and_assoc] using all_eq_true.mp all c (by simpa [isBlank] using blank)

theorem punctuation_apart (mark : c ∈ punctuation) : isWordChar c = false ∧ c ≠ '"' ∧ c ≠ '\'' := by
  have all : punctuation.all fun c => !isWordChar c && (c != '"' && c != '\'') := by decide
  simpa using all_eq_true.mp all c mark

theorem commentLength?_ends (found : commentLength? cs = some n) :
    Closes cs n ∨ ∀ c ∈ (cs.drop n).head?, isWordChar c = false := by
  unfold commentLength? at found
  split at found
  · rename_i rest
    obtain rfl := some.inj found
    refine .inr fun c next => ?_
    rw [← drop_drop] at next
    obtain rfl : c = '\n' := by simpa using head?_drop_takeWhile (p := (· ≠ '\n')) next
    rfl
  · rename_i rest
    obtain ⟨behind, inner, rfl⟩ := map_eq_some_iff.mp found
    obtain ⟨length, closes⟩ := blockComment?_closes inner
    have same : 2 + (rest.length - behind.length) = 1 + (1 + Site.blockComment 1 rest) := by
      have length : Site.blockComment 1 rest + behind.length = rest.length := length
      omega
    rw [same]
    exact .inl ((closes.cons '*').cons '/')
  · cases found

theorem cut_of_token (read : tokenLength? cs = some (kind, n)) : Cut cs kind n := by
  cases cs with
  | nil => cases read
  | cons =>
    rw [tokenLength?] at read
    split at read
    · cases read
      exact .blank ‹_›
    · split at read
      · obtain ⟨_, found, same⟩ := map_eq_some_iff.mp read
        cases same
        exact .comment found
      · rename_i apart
        split at read
        · rename_i mark
          cases read
          exact .punct (by simpa using mark) fun slash => by simpa [slash] using apart
        · split at read
          · cases read
            exact .literal ‹_›
          · split at read
            · cases read
              exact .number ‹_›
            · exact .name read

end Source

section Passing

open Source

variable {name : List Char} {spot : Spot}

theorem Source.Closes.atEdge {n : Nat} (closes : Closes spot.rest n) : (spot.skip n).AtEdge := by
  obtain ⟨i, _, rfl, there, apart⟩ := closes
  have mem : i < spot.rest.length := (List.getElem?_eq_some_iff.mp there).1
  intro within
  rw [Spot.inWord, Spot.previous_skip mem, there] at within
  exact absurd within (by simp [apart])

namespace Site

variable {rest : List Char} {n : Nat} {kind : Kind}

theorem next_skip_of_skipped {c : Char} (there : spot.rest = c :: rest) (skipped : isSkipped spot.previous c rest = true)
    (length : advance spot.previous c rest = n) : next name (spot.skip n) = next name spot := by
  rw [next_step there (.inl skipped), length]

theorem next_skip_string (there : spot.rest = '"' :: rest) (found : Template.Code.stringLength? rest = some n) :
    next name (spot.skip (1 + n)) = next name spot :=
  next_skip_of_skipped there rfl (by simp [advance, (stringLength?_closes found).1])

theorem next_skip_char (there : spot.rest = '\'' :: rest) (found : charLength? rest = some n) :
    next name (spot.skip (1 + n)) = next name spot :=
  next_skip_of_skipped there rfl (by simp [advance, (charLength?_closes found).1])

theorem next_skip_rawString (there : spot.rest = 'r' :: rest) (front : spot.inWord = false ∨ spot.previous = some 'b')
    (found : Source.rawLength? rest = some n) : next name (spot.skip (1 + n)) = next name spot := by
  obtain ⟨length, -, head⟩ := rawLength?_closes found
  have front : (spot.previous.map isWordChar).getD false = false ∨ spot.previous = some 'b' := front
  cases rest with
  | nil => simp at head
  | cons c =>
    have quote : c = '"' ∨ c = '#' := by simpa using head
    refine next_skip_of_skipped there ?_ ?_
    · simpa [isSkipped, quote] using front
    · simp [advance, front, quote, length]

theorem next_skip_b (named : IsName name) (text : List Char) (there : spot.rest = 'b' :: (text ++ rest))
    (plain : ∀ c ∈ text, isNumberChar c = true) (quote : ∀ c ∈ rest.head?, c = '"' ∨ c = '\'' ∨ c = '#') :
    next name (spot.skip 1) = next name spot := by
  refine next_skip_one fun c tail here => ?_
  obtain ⟨rfl, rfl⟩ := cons.inj (here.symm.trans there)
  refine ⟨rfl, .inr ?_⟩
  rw [there]
  refine blockHere_eq_none named ('b' :: text) (forall_mem_cons.mpr ⟨rfl, plain⟩) (fun c next => ?_) fun _ => ?_
  · obtain rfl | rfl | rfl := quote c next <;> rfl
  · cases rest with
    | nil => rfl
    | cons c => obtain rfl | rfl | rfl := quote c rfl <;> rfl

theorem next_skip_quotation (named : IsName name) (edge : spot.AtEdge) (found : quotationLength? spot.rest = some n) :
    next name (spot.skip n) = next name spot := by
  have two (m : Nat) : spot.skip (2 + m) = (spot.skip 1).skip (1 + m) := by
    rw [Spot.skip_skip, ← Nat.add_assoc]
  unfold quotationLength? at found
  split at found
  all_goals try obtain ⟨m, inner, rfl⟩ := map_eq_some_iff.mp found
  case h_1 there => exact next_skip_string there inner
  case h_2 there => exact next_skip_char there inner
  case h_3 there =>
    refine next_skip_rawString there (.inl ?_) inner
    rw [Bool.eq_false_iff]
    intro within
    exact absurd (edge within 'r' (by simp [there])) (by decide)
  case h_4 rest there =>
    rw [two, next_skip_string (by simp [there]) inner]
    exact next_skip_b named [] there (by simp) (by simp)
  case h_5 rest there =>
    rw [two, next_skip_char (by simp [there]) inner]
    exact next_skip_b named [] there (by simp) (by simp)
  case h_6 rest there =>
    have front : (spot.skip 1).previous = some 'b' := by
      rw [Spot.previous_skip (by simp [there]), there]
      rfl
    rw [two, next_skip_rawString (by simp [there]) (.inr front) inner]
    refine next_skip_b named ['r'] there (forall_mem_singleton.mpr rfl) fun c next => ?_
    obtain head | head := (rawLength?_closes inner).2.2
    all_goals
      obtain rfl := some.inj (head.symm.trans next)
      simp
  case h_7 => cases found

theorem next_skip_mark {c : Char} (named : IsName name) (there : spot.rest = c :: rest) (apart : isWordChar c = false)
    (plain : c ≠ '"' ∧ c ≠ '\'') (slash : c = '/' → rest.head? ≠ some '/' ∧ rest.head? ≠ some '*') :
    next name (spot.skip 1) = next name spot := by
  refine next_skip_one fun d tail here => ?_
  obtain ⟨rfl, rfl⟩ := cons.inj (there.symm.trans here)
  constructor
  · unfold isSkipped
    split <;> simp_all [isWordChar]
  · refine .inr ?_
    have first : ¬ name.isPrefixOf (c :: rest) := by
      intro begins
      cases name with
      | nil => exact named.solid rfl
      | cons d =>
        obtain ⟨same, -⟩ := cons_prefix_cons.mp ( isPrefixOf_iff_prefix.mp begins)
        have letter := named.letters d (by simp)
        simp [same, apart] at letter
    rw [there, blockHere_eq, if_neg first]

theorem next_skip_comment (named : IsName name) (found : commentLength? spot.rest = some n) :
    next name (spot.skip n) = next name spot := by
  unfold commentLength? at found
  split at found
  case h_1 rest there =>
    obtain rfl := some.inj found
    -- the search passes over the line break, too
    have past : next name (spot.skip (2 + (rest.takeWhile (· ≠ '\n')).length + 1)) = next name spot :=
      next_skip_of_skipped there rfl (by simp [advance]; omega)
    have behind : (spot.skip (2 + (rest.takeWhile (· ≠ '\n')).length)).rest =
        rest.drop (rest.takeWhile (· ≠ '\n')).length := by
      rw [Spot.rest_skip, there, ← drop_drop]
      rfl
    have feed : next name ((spot.skip (2 + (rest.takeWhile (· ≠ '\n')).length)).skip 1) =
        next name (spot.skip (2 + (rest.takeWhile (· ≠ '\n')).length)) := by
      cases left : rest.drop (rest.takeWhile (· ≠ '\n')).length with
      | nil => exact next_skip_one fun c tail here => absurd (here.symm.trans (behind.trans left)) (by simp)
      | cons c =>
        obtain rfl : c = '\n' := by simpa using head?_drop_takeWhile (p := (· ≠ '\n')) (congrArg head? left)
        exact next_skip_mark named (behind.trans left) rfl (by decide) fun slash => absurd slash (by decide)
    rw [← feed, Spot.skip_skip, past]
  case h_2 rest there =>
    obtain ⟨behind, inner, rfl⟩ := map_eq_some_iff.mp found
    have length : blockComment 1 rest + behind.length = rest.length := (blockComment?_closes inner).1
    exact next_skip_of_skipped there rfl (by simp only [advance]; omega)
  case h_3 => cases found

theorem next_skip_rawMark (edge : spot.AtEdge) (there : spot.rest = 'r' :: '#' :: rest) (word : wordAt rest ≠ []) :
    next name (spot.skip 2) = next name spot := by
  have apart : (spot.previous.map isWordChar).getD false = false := by
    rw [Bool.eq_false_iff]
    intro within
    exact absurd (edge within 'r' (by simp [there])) (by decide)
  refine next_skip_of_skipped there (by simp [isSkipped, apart]) ?_
  obtain ⟨c, _, rfl, letter⟩ := wordAt_head word
  have plain : c ≠ '#' ∧ c ≠ '"' := by
    constructor <;> rintro rfl <;> exact absurd letter (by decide)
  simp [advance, apart, rawString, plain]

theorem next_skip_quote (there : spot.rest = '\'' :: rest) (plain : rest.head? ≠ some '\\')
    (single : (rest.drop 1).head? ≠ some '\'') : next name (spot.skip 1) = next name spot := by
  refine next_skip_of_skipped there rfl ?_
  have nothing : charLiteral rest = 0 := by
    unfold charLiteral
    split <;> simp_all
  simp [advance, nothing]

theorem next_skip_name (named : IsName name) (edge : spot.AtEdge) (found : nameLength? spot.rest = some (kind, n))
    (harmless : Harmless name (spot.rest.take n) (spot.rest.drop n)) : next name (spot.skip n) = next name spot := by
  obtain ⟨mark, word, behind, read⟩ := nameLength?_eq_some found
  obtain rfl := read.length
  rw [read.text, ← append_assoc, take_left' length_append, drop_left' length_append] at harmless
  have letters (c : Char) (mem : c ∈ word) : isNumberChar c = true := by
    simp [isNumberChar, read.letters c mem]
  -- what is in front of the word is passed over first
  have front (start : next name (spot.skip mark.length) = next name spot) (apart : (spot.skip mark.length).AtEdge)
      (none : ending mark = []) : next name (spot.skip (mark.length + word.length)) = next name spot := by
    rw [← Spot.skip_skip, ← start]
    refine next_skip_numberChars named ?_ letters apart read.whole (harmless.word read.letters none)
    rw [Spot.rest_skip, read.text, drop_left]
  have there := read.text
  have start : wordAt (word ++ behind) ≠ [] := by
    rw [read.cut]
    exact read.solid
  obtain rfl | rfl | rfl | rfl : mark = [] ∨ mark = ['r', '#'] ∨ mark = ['\'', 'r', '#'] ∨ mark = ['\''] := by
    simpa using read.marked
  · exact front (by rw [length_nil, Spot.skip_zero]) (by rwa [length_nil, Spot.skip_zero]) rfl
  · exact front (next_skip_rawMark edge there start) (Closes.atEdge ⟨1, '#', rfl, by simp [there], rfl⟩) rfl
  · have quote : next name (spot.skip 1) = next name spot := next_skip_quote there (by simp) (by simp)
    have mark : next name ((spot.skip 1).skip 2) = next name (spot.skip 1) :=
      next_skip_rawMark (Closes.atEdge ⟨0, '\'', rfl, by simp [there], rfl⟩) (by simp [there]) start
    exact front (by rw [← quote, ← mark, Spot.skip_skip]; rfl) (Closes.atEdge ⟨2, '#', rfl, by simp [there], rfl⟩) rfl
  · refine front (next_skip_quote there ?_ ?_) (Closes.atEdge ⟨0, '\'', rfl, by simp [there], rfl⟩) rfl
    -- the first letter is no backslash, and what is behind it is a letter or behind the word
    all_goals
      obtain ⟨c, word, rfl⟩ := exists_cons_of_ne_nil read.solid
    · rintro head
      obtain rfl : c = '\\' := by simpa using head
      exact absurd (read.letters '\\' (by simp)) (by decide)
    · intro head
      cases word with
      | nil => exact read.free '\'' head (by decide)
      | cons d =>
        obtain rfl : d = '\'' := by simpa using head
        exact absurd (read.letters '\'' (by simp)) (by decide)

theorem next_skip_number (named : IsName name) (edge : spot.AtEdge) (found : numberLength? spot.rest = some n)
    (harmless : Harmless name (spot.rest.take (withSuffix spot.rest n)) (spot.rest.drop (withSuffix spot.rest n))) :
    next name (spot.skip (withSuffix spot.rest n)) = next name spot := by
  obtain ⟨numeral, -⟩ := numberLength?_numeral found
  have text := take_withSuffix spot.rest n
  have length : (spot.rest.take (withSuffix spot.rest n)).length = withSuffix spot.rest n := by
    rw [text, length_append, length_take, Nat.min_eq_left numeral.inside, withSuffix]
  have chars (c : Char) (mem : c ∈ spot.rest.take (withSuffix spot.rest n)) : isNumberChar c = true := by
    rw [text] at mem
    obtain digit | letter := mem_append.mp mem
    · exact numeral.chars c digit
    · simp [isNumberChar, wordAt_letters letter]
  have passed := next_skip_numberChars named (take_append_drop _ _).symm chars edge (withSuffix_whole numeral.ends)
    harmless
  rwa [length] at passed

theorem next_skip_literal (named : IsName name) (edge : spot.AtEdge) (found : quotationLength? spot.rest = some n)
    (harmless : Harmless name (spot.rest.take (withSuffix spot.rest n)) (spot.rest.drop (withSuffix spot.rest n))) :
    next name (spot.skip (withSuffix spot.rest n)) = next name spot := by
  have closes := quotationLength?_closes found
  rw [take_withSuffix] at harmless
  rw [withSuffix, ← Spot.skip_skip, ← next_skip_quotation named edge found]
  by_cases none : wordAt (spot.rest.drop n) = []
  · rw [none, length_nil, Spot.skip_zero]
  · have apart : ending (spot.rest.take n) = [] := by
      obtain ⟨i, c, rfl, there, apart⟩ := closes
      have last : (spot.rest.take (i + 1)).getLast? = some c := by
        rw [take_add_one, there]
        exact getLast?_concat
      exact ending_eq_nil (by simp [last, apart])
    refine next_skip_numberChars named (wordAt_append _).symm (fun c mem => ?_) closes.atEdge
      (fun c next => wordAt_whole none next) ?_
    · simp [isNumberChar, wordAt_letters mem]
    · rw [Spot.rest_skip, drop_drop]
      exact harmless.word (fun c => wordAt_letters) apart

theorem next_skip_token (named : IsName name) (edge : spot.AtEdge) (read : tokenLength? spot.rest = some (kind, n))
    (harmless : Harmless name (spot.rest.take n) (spot.rest.drop n)) : next name (spot.skip n) = next name spot := by
  generalize there : spot.rest = cs at read
  cases cut_of_token read with
  | @blank _ _ blank =>
    obtain ⟨apart, plain, noSlash⟩ := blank_apart blank
    exact next_skip_mark named there apart plain fun slash => absurd slash noSlash
  | comment found => exact next_skip_comment named (there ▸ found)
  | @punct _ _ mark slash =>
    obtain ⟨apart, plain⟩ := punctuation_apart mark
    exact next_skip_mark named there apart plain slash
  | literal found =>
    subst there
    exact next_skip_literal named edge found harmless
  | number found =>
    subst there
    exact next_skip_number named edge found harmless
  | name found =>
    subst there
    exact next_skip_name named edge found harmless

theorem atEdge_token (read : tokenLength? spot.rest = some (kind, n)) : (spot.skip n).AtEdge := by
  have edge (whole : ∀ c ∈ (spot.rest.drop n).head?, isWordChar c = false) : (spot.skip n).AtEdge := fun _ => whole
  generalize there : spot.rest = cs at read
  cases cut_of_token read with
  | @blank c _ blank => exact Closes.atEdge ⟨0, c, rfl, by simp [there], (blank_apart blank).1⟩
  | comment found =>
    subst there
    exact (commentLength?_ends found).elim Closes.atEdge edge
  | @punct c _ mark => exact Closes.atEdge ⟨0, c, rfl, by simp [there], (punctuation_apart mark).1⟩
  | @literal _ m found =>
    subst there
    by_cases none : wordAt (spot.rest.drop m) = []
    · rw [withSuffix, none]
      exact (quotationLength?_closes found).atEdge
    · refine edge fun c next => wordAt_whole none ?_
      rwa [drop_drop]
  | number found =>
    subst there
    exact edge (withSuffix_whole (numberLength?_numeral found).1.ends)
  | name found =>
    subst there
    obtain ⟨_, _, _, read⟩ := nameLength?_eq_some found
    obtain rfl := read.length
    refine edge ?_
    rw [read.text, ← append_assoc, drop_left' length_append]
    exact read.whole

end Site
end Passing

section Search

open Source

variable {name source : List Char} {spot : Spot}

namespace Source

variable {cs : List Char} {tokens : List Token} {n : Nat}

def textOf (tokens : List Token) : List Char := tokens.flatMap Token.text

def gapLength? : List Token → Option Nat
  | [] => none
  | token :: rest =>
    if token = ⟨.punct, ['\x7b']⟩ then some 0
    else match token with
      | ⟨.blank, [c]⟩ => if isSpace c then (gapLength? rest).map (1 + ·) else none
      | _ => none

def leadLength? : List Token → Option Nat
  | [] => none
  | token :: rest => if token = ⟨.punct, ['!']⟩ then (gapLength? rest).map (1 + ·) else none

/-- The first block: the name as a token of its own, `!`, blanks and an opening brace. Gives the lengths of the text in
front of the name and of the text in front of the brace. -/
def firstBlock? (name : List Char) : List Token → Option (Nat × Nat)
  | [] => none
  | token :: rest =>
    match if token = ⟨.word, name⟩ then leadLength? rest else none with
    | some n => some (0, token.text.length + n)
    | none => (firstBlock? name rest).map fun (start, brace) => (token.text.length + start, token.text.length + brace)

/-- No token but a word could be read for a block or for the mark of a raw string. -/
def Clear (name : List Char) : List Token → Prop
  | [] => True
  | token :: rest => (token.kind = .word ∨ Harmless name token.text (textOf rest)) ∧ Clear name rest

instance decidableLexed (cs : List Char) : (tokens : List Token) → Decidable (Lexed cs tokens)
  | [] => inferInstanceAs (Decidable (cs = []))
  | token :: tokens =>
    have := decidableLexed (cs.drop token.text.length) tokens
    inferInstanceAs (Decidable (_ ∧ _ ∧ _))

instance (name text rest : List Char) : Decidable (Harmless name text rest) :=
  decidable_of_iff (_ ∧ _) ⟨fun ⟨other, unmarked⟩ => ⟨other, unmarked⟩, fun ⟨other, unmarked⟩ => ⟨other, unmarked⟩⟩

instance decidableClear (name : List Char) : (tokens : List Token) → Decidable (Clear name tokens)
  | [] => inferInstanceAs (Decidable True)
  | _ :: tokens =>
    have := decidableClear name tokens
    inferInstanceAs (Decidable ((_ ∨ _) ∧ _))

theorem textOf_cons (token : Token) (tokens : List Token) : textOf (token :: tokens) = token.text ++ textOf tokens := rfl

theorem Lexed.textOf_eq (lexed : Lexed cs tokens) : textOf tokens = cs := by
  induction tokens generalizing cs with
  | nil => exact Eq.symm lexed
  | cons token _ ih =>
    obtain ⟨-, text, later⟩ := lexed
    rw [textOf_cons, ih later, text]
    conv_rhs => rw [← take_append_drop token.text.length cs]
    rw [← text]

theorem tokenLength?_pos {kind : Kind} (read : tokenLength? cs = some (kind, n)) : 0 < n := by
  cases cut_of_token read with
  | blank | punct => exact Nat.one_pos
  | comment found =>
    unfold commentLength? at found
    split at found
    · obtain rfl := some.inj found
      omega
    · obtain ⟨_, -, rfl⟩ := map_eq_some_iff.mp found
      omega
    · cases found
  | literal found =>
    obtain ⟨_, _, rfl, -⟩ := quotationLength?_closes found
    rw [withSuffix]
    omega
  | number found => exact Nat.lt_of_lt_of_le (numberLength?_numeral found).2 (Nat.le_add_right ..)
  | name found =>
    obtain ⟨_, _, _, read⟩ := nameLength?_eq_some found
    have solid := length_pos_iff.mpr read.solid
    rw [read.length]
    omega

section First

variable {c : Char} {rest : List Char} {token : Token} {tokens : List Token}

theorem Lexed.head (lexed : Lexed (c :: rest) (token :: tokens)) : ∃ kind tail, token = ⟨kind, c :: tail⟩ := by
  obtain ⟨n, length⟩ := Nat.exists_eq_add_one.mpr (tokenLength?_pos lexed.1)
  have text := lexed.2.1
  rw [length] at text
  exact ⟨token.kind, rest.take n, by rw [← take_succ_cons, ← text]⟩

theorem Lexed.single {kind : Kind} (lexed : Lexed (c :: rest) (token :: tokens))
    (single : tokenLength? (c :: rest) = some (kind, 1)) : token = ⟨kind, [c]⟩ ∧ Lexed rest tokens := by
  obtain ⟨read, text, later⟩ := lexed
  obtain ⟨sort, length⟩ := Prod.mk.inj (some.inj (read.symm.trans single))
  rw [length] at text later
  obtain ⟨_, _⟩ := token
  cases sort
  cases text
  exact ⟨rfl, later⟩

theorem tokenLength?_blank (blank : isBlank c = true) : tokenLength? (c :: rest) = some (.blank, 1) := by
  rw [tokenLength?, if_pos blank]

theorem tokenLength?_punct (mark : c ∈ punctuation) (plain : isBlank c = false) (apart : c ≠ '/') :
    tokenLength? (c :: rest) = some (.punct, 1) := by
  simp [tokenLength?, plain, apart, mark]

end First

theorem isBlank_of_isSpace {c : Char} (space : isSpace c = true) : isBlank c = true := by
  simp only [isSpace, Bool.or_eq_true, beq_iff_eq] at space
  obtain (((rfl | rfl) | rfl) | rfl) | rfl := space <;> decide

theorem gapLength?_eq (lexed : Lexed cs tokens) : gapLength? tokens =
      if (cs.drop (cs.takeWhile isSpace).length).head? = some '\x7b' then some (cs.takeWhile isSpace).length else none := by
  induction tokens generalizing cs with
  | nil =>
    obtain rfl : cs = [] := lexed
    rfl
  | cons _ tokens ih =>
    cases cs with
    | nil => exact absurd lexed.1 (by simp [tokenLength?])
    | cons c =>
      by_cases brace : c = '\x7b'
      · subst brace
        obtain ⟨rfl, -⟩ := lexed.single (tokenLength?_punct (by decide) (by decide) (by decide))
        rfl
      by_cases space : isSpace c = true
      · obtain ⟨rfl, later⟩ := lexed.single (tokenLength?_blank (isBlank_of_isSpace space))
        rw [gapLength?, if_neg (by simp)]
        simp only [space, if_true, ih later, takeWhile_cons, length_cons, drop_succ_cons]
        split <;> simp [Nat.add_comm]
      · obtain ⟨kind, tail, rfl⟩ := lexed.head
        have nothing : gapLength? (⟨kind, c :: tail⟩ :: tokens) = none := by
          unfold gapLength?
          rw [if_neg (by simp [brace])]
          split
          · rename_i same
            obtain ⟨-, rfl, -⟩ : _ ∧ c = _ ∧ _ := by simpa using same
            exact if_neg space
          · rfl
        rw [nothing, takeWhile_cons, if_neg space]
        exact (if_neg (by simpa using brace)).symm

theorem leadLength?_eq (lexed : Lexed cs tokens) : leadLength? tokens = openingLength? cs := by
  cases tokens with
  | nil =>
    obtain rfl : cs = [] := lexed
    rfl
  | cons =>
    cases cs with
    | nil => exact absurd lexed.1 (by simp [tokenLength?])
    | cons c =>
      by_cases bang : c = '!'
      · subst bang
        obtain ⟨rfl, later⟩ := lexed.single (tokenLength?_punct (by decide) (by decide) (by decide))
        rw [leadLength?, if_pos rfl, gapLength?_eq later, openingLength?]
        split <;> rfl
      · obtain ⟨_, _, rfl⟩ := lexed.head
        rw [leadLength?, if_neg (by simp [bang])]
        simp [openingLength?, bang]

theorem openingLength?_head (opens : openingLength? cs = some n) : cs.head? = some '!' := by
  unfold openingLength? at opens
  split at opens
  · rfl
  · cases opens

theorem named_of_word (read : tokenLength? cs = some (.word, n)) : ∃ word behind, Named cs .word n [] word behind := by
  cases cut_of_token read with
  | name found =>
    obtain ⟨mark, word, behind, read⟩ := nameLength?_eq_some found
    have plain : mark = [] := by
      have sort := read.sort
      unfold kindOf at sort
      split at sort
      · assumption
      · split at sort <;> cases sort
    exact ⟨word, behind, plain ▸ read⟩

end Source

namespace Site

theorem next_block {n : Nat} (named : IsName name) (edge : spot.AtEdge) (text : name = spot.rest.take name.length)
    (begins : openingLength? (spot.rest.drop name.length) = some n) :
    next name spot = some (spot.skip 0, spot.skip (name.length + n)) := by
  have start : spot.rest = name ++ spot.rest.drop name.length := by
    conv_lhs => rw [← take_append_drop name.length spot.rest, ← text]
  have here : blockHere name spot.rest = some (name.length + n) := by
    rw [blockHere_eq, if_pos ( isPrefixOf_iff_prefix.mpr ⟨_, start.symm⟩), begins]
    rfl
  have bang := openingLength?_head begins
  obtain ⟨c, tail, rfl⟩ := exists_cons_of_ne_nil named.solid
  have letter := named.letters c (by simp)
  rw [next_here start ?_ ?_ here, Spot.skip_zero]
  · rw [Bool.eq_false_iff]
    intro skipped
    obtain ⟨-, -, quoted⟩ := isSkipped_of_numberChar (by simp [isNumberChar, letter]) skipped
    cases tail with
    | nil =>
      have quoted : (spot.rest.drop 1).head? = some '"' ∨ (spot.rest.drop 1).head? = some '#' := quoted
      rw [show (spot.rest.drop 1).head? = some '!' from bang] at quoted
      simp at quoted
    | cons d =>
      have letter := named.letters d (by simp)
      obtain rfl | rfl : d = '"' ∨ d = '#' := by simpa using quoted
      · exact absurd letter (by decide)
      · exact absurd letter (by decide)
  · rw [Bool.eq_false_iff]
    intro within
    exact absurd letter (by simp [edge within c (by rw [start]; rfl)])

theorem harmless_word {cs : List Char} {n : Nat} (read : tokenLength? cs = some (.word, n))
    (other : cs.take n = name → openingLength? (cs.drop n) = none) : Harmless name (cs.take n) (cs.drop n) := by
  obtain ⟨word, behind, cut⟩ := named_of_word read
  obtain rfl : n = word.length := by simpa using cut.length
  have front : cs.take word.length = word := (congrArg (take _) cut.text).trans take_left
  have rest : cs.drop word.length = behind := (congrArg (drop _) cut.text).trans drop_left
  rw [front, rest] at other ⊢
  refine ⟨fun same => other (by rwa [ending_word cut.letters] at same), fun _ => ⟨fun head => ?_, fun head => ?_⟩⟩
  · exact cut.free '"' head (by decide)
  · exact cut.free '#' head (by decide)

theorem next_lexed {tokens : List Token} (named : IsName name) (edge : spot.AtEdge) (lexed : Lexed spot.rest tokens)
    (clear : Clear name tokens) :
    next name spot = (firstBlock? name tokens).map fun (start, brace) => (spot.skip start, spot.skip brace) := by
  induction tokens generalizing spot with
  | nil => exact next_nil lexed
  | cons token _ ih =>
    obtain ⟨read, text, later⟩ := lexed
    have lead := leadLength?_eq later
    rw [firstBlock?]
    split
    case h_1 n begins =>
      obtain ⟨rfl, leads⟩ := ite_none_right_eq_some.mp begins
      exact next_block named edge text (lead.symm.trans leads)
    case h_2 none =>
      have passed : next name (spot.skip token.text.length) = next name spot := by
        refine next_skip_token named edge read ?_
        refine clear.1.elim (fun word => harmless_word (word ▸ read) fun same => ?_) fun harmless => ?_
        · rw [← lead]
          rw [if_pos] at none
          · exact none
          · rw [← same, ← text, ← word]
        · rwa [text, later.textOf_eq] at harmless
      rw [← passed, ih (atEdge_token read) later clear.2, Option.map_map]
      simp only [Spot.skip_skip]
      rfl

end Site

theorem Spot.atEdge_start (source : List Char) : (Spot.start source).AtEdge := nofun

theorem Source.Lexed.behind {tokens more : List Token} (edge : spot.AtEdge) (lexed : Lexed spot.rest (tokens ++ more)) :
    (spot.skip (textOf tokens).length).AtEdge ∧ Lexed (spot.skip (textOf tokens).length).rest more := by
  induction tokens generalizing spot with
  | nil => simpa [textOf, Spot.skip_zero] using ⟨edge, lexed⟩
  | cons _ _ ih =>
    obtain ⟨read, -, later⟩ := lexed
    have behind := ih (Site.atEdge_token read) later
    rwa [Spot.skip_skip, ← length_append, ← textOf_cons] at behind

/-- From behind any token of a source text, the search gives the first block behind it, or nothing where there is none. -/
theorem search_finds_first_block {tokens more : List Token} (named : IsName name) (lexed : Lexed source (tokens ++ more))
    (clear : Clear name more) :
    Site.next name ((Spot.start source).skip (textOf tokens).length) =
      (firstBlock? name more).map fun (start, brace) =>
        ((Spot.start source).skip ((textOf tokens).length + start), (Spot.start source).skip ((textOf tokens).length + brace)) := by
  obtain ⟨edge, later⟩ := Lexed.behind (Spot.atEdge_start source) lexed
  rw [Site.next_lexed named edge later clear]
  simp only [Spot.skip_skip]

def labelled : List Token :=
  [⟨.comment, "/* view! \x7b */".toList⟩, ⟨.blank, [' ']⟩, ⟨.lifetime, "'a".toList⟩, ⟨.punct, [':']⟩, ⟨.blank, [' ']⟩]

def quotedThenBlock : List Token :=
  [⟨.literal, "r#\"view! \x7b\"#".toList⟩, ⟨.punct, [',']⟩, ⟨.number, "1.5e-3f32".toList⟩, ⟨.literal, "'\\''".toList⟩,
    ⟨.blank, [' ']⟩, ⟨.word, "view".toList⟩, ⟨.punct, ['!']⟩, ⟨.blank, ['\n']⟩, ⟨.punct, ['\x7b']⟩, ⟨.punct, ['\x7d']⟩]

theorem isName_view : IsName ['v', 'i', 'e', 'w'] := ⟨by decide, all_eq_true.mp (by decide)⟩

theorem search_finds_first_block_quoted : Lexed (textOf (labelled ++ quotedThenBlock)) (labelled ++ quotedThenBlock) ∧
      Clear ['v', 'i', 'e', 'w'] quotedThenBlock ∧ firstBlock? ['v', 'i', 'e', 'w'] quotedThenBlock = some (27, 33) ∧
      Site.next ['v', 'i', 'e', 'w']
          ((Spot.start (textOf (labelled ++ quotedThenBlock))).skip (textOf labelled).length) =
        (firstBlock? ['v', 'i', 'e', 'w'] quotedThenBlock).map fun (start, brace) =>
          ((Spot.start (textOf (labelled ++ quotedThenBlock))).skip ((textOf labelled).length + start),
            (Spot.start (textOf (labelled ++ quotedThenBlock))).skip ((textOf labelled).length + brace)) := by
  have lexed : Lexed (textOf (labelled ++ quotedThenBlock)) (labelled ++ quotedThenBlock) := by decide +kernel
  have clear : Clear ['v', 'i', 'e', 'w'] quotedThenBlock := by decide +kernel
  exact ⟨lexed, clear, by decide +kernel, search_finds_first_block isName_view lexed clear⟩

def rawNamed : List Token :=
  [⟨.rawName, "r#view".toList⟩, ⟨.punct, ['!']⟩, ⟨.blank, [' ']⟩, ⟨.punct, ['\x7b']⟩, ⟨.punct, ['\x7d']⟩]

/-- The search does not find the first block of every source text: it takes what is behind `r#` for a name of its own. -/
theorem raw_name_taken_for_block :
    ¬ ∀ (name source : List Char) (tokens more : List Token), IsName name → Lexed source (tokens ++ more) →
      Site.next name ((Spot.start source).skip (textOf tokens).length) =
        (firstBlock? name more).map fun (start, brace) =>
          ((Spot.start source).skip ((textOf tokens).length + start),
            (Spot.start source).skip ((textOf tokens).length + brace)) := by
  intro finds
  have lexed : Lexed (textOf rawNamed) ([] ++ rawNamed) := by decide +kernel
  have found := finds ['v', 'i', 'e', 'w'] (textOf rawNamed) [] rawNamed isName_view lexed
  have none : firstBlock? ['v', 'i', 'e', 'w'] rawNamed = none := by decide +kernel
  have some : (Site.next ['v', 'i', 'e', 'w'] ((Spot.start (textOf rawNamed)).skip (textOf []).length)).isSome := by
    decide +kernel
  rw [found, none] at some
  exact absurd some (by decide)

end Search
end LiveMarkup.Codegen
