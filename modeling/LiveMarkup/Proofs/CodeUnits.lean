import LiveMarkup.Template.Code
import Mathlib.Data.List.Infix
import Mathlib.Data.List.TakeWhile

/-!
What the reader of code gets over. It goes from one lexical unit to the next: a string, a raw string, a character or any other
single character. Where the units are complete and the braces match, it comes to the end of a text with as many braces open as
before it.
-/

namespace LiveMarkup.Template
open List

/-- What stands between the quotes of a string: escapes and plain characters. -/
inductive IsStringBody : List Char → Prop
  | nil : IsStringBody []
  | escape (c : Char) {body : List Char} (rest : IsStringBody body) : IsStringBody ('\\' :: c :: body)
  | plain {c : Char} {body : List Char} (quote : c ≠ '"') (escape : c ≠ '\\') (rest : IsStringBody body) :
      IsStringBody (c :: body)

/-- What stands between the quotes of a character literal: a character or an escape without a quote. -/
def IsCharBody (body : List Char) : Prop :=
  (∃ c, body = [c] ∧ c ≠ '\'' ∧ c ≠ '\\') ∨ ∃ escaped, body = '\\' :: escaped ∧ escaped ≠ [] ∧ '\'' ∉ escaped

def rawQuote (hashes : Nat) : List Char := '"' :: replicate hashes '#'

/-- A text begins with the hashes and the quote of a raw string. -/
def OpensRaw (cs : List Char) : Prop := ∃ hashes rest, cs = replicate hashes '#' ++ '"' :: rest

/-- A text that the reader gets over in front of another: what it takes for a literal is complete, a quote of no literal
begins none and braces match. The first two of the quotes in `'\''` are taken for a literal. -/
inductive PassedOver : (text following : List Char) → Prop
  | nil {following : List Char} : PassedOver [] following
  | plain {c : Char} {text following : List Char} (plain : c ∉ ['"', '\'', '\x7b', '\x7d'])
      (apart : c = 'r' → ¬ OpensRaw (text ++ following)) (behind : PassedOver text following) :
      PassedOver (c :: text) following
  | quote {text following : List Char} (idle : Code.charLength? (text ++ following) = none)
      (behind : PassedOver text following) : PassedOver ('\'' :: text) following
  | backslash {text following : List Char} (behind : PassedOver text following) :
      PassedOver ('\'' :: '\\' :: '\'' :: text) following
  | char {body text following : List Char} (complete : IsCharBody body) (behind : PassedOver text following) :
      PassedOver ('\'' :: (body ++ '\'' :: text)) following
  | string {body text following : List Char} (complete : IsStringBody body) (behind : PassedOver text following) :
      PassedOver ('"' :: (body ++ '"' :: text)) following
  | raw {hashes : Nat} {body text following : List Char} (complete : ¬ rawQuote hashes <:+: body)
      (behind : PassedOver text following) :
      PassedOver ('r' :: (replicate hashes '#' ++ '"' :: (body ++ (rawQuote hashes ++ text)))) following
  | group {inner text following : List Char} (balanced : PassedOver inner ('\x7d' :: (text ++ following)))
      (behind : PassedOver text following) : PassedOver ('\x7b' :: (inner ++ '\x7d' :: text)) following

namespace Code

variable {body : List Char} {hashes : Nat}

theorem stringLength?_body (complete : IsStringBody body) (rest : List Char) :
    stringLength? (body ++ '"' :: rest) = some (body.length + 1) := by
  induction complete with
  | nil => rfl
  | escape _ _ ih => simp [stringLength?, ih]
  | @plain _ _ quote escape _ ih =>
    rw [cons_append, stringLength?.eq_4 _ _ quote fun _ _ same _ => escape same, ih]
    rfl

theorem rawLength?_body (complete : ¬ rawQuote hashes <:+: body) (rest : List Char) :
    rawLength? hashes (body ++ (rawQuote hashes ++ rest)) = some (body.length + (1 + hashes)) := by
  induction body with
  | nil => simp [rawQuote, rawLength?]
  | cons c body ih =>
    have shorter : ¬ rawQuote hashes <:+: body := fun mem => complete (infix_cons mem)
    have goes : ¬ (c = '"' ∧ (body ++ (rawQuote hashes ++ rest)).take hashes = replicate hashes '#') := by
      rintro ⟨rfl, follow⟩
      refine complete (IsPrefix.isInfix (cons_prefix_cons.mpr ⟨rfl, ?_⟩))
      -- the hashes cannot reach the closing quote
      have room : hashes ≤ body.length := by
        refine Nat.le_of_not_lt fun short => ?_
        have quote := congrArg (·[body.length]?) follow
        simp [rawQuote, short] at quote
      rw [take_append_of_le_length room] at follow
      exact follow ▸ take_prefix hashes body
    have longer : body.length + (1 + hashes) + 1 = (c :: body).length + (1 + hashes) := by
      rw [length_cons]
      omega
    rw [cons_append, rawLength?, if_neg goes, ih shorter, Option.map_some, longer]

theorem charLength?_body (complete : IsCharBody body) (rest : List Char) :
    charLength? (body ++ '\'' :: rest) = some (body.length + 1) := by
  obtain ⟨c, rfl, quote, escape⟩ | ⟨escaped, rfl, -, closed⟩ := complete
  · rw [singleton_append, charLength?.eq_2 _ _ escape, if_neg quote]
    rfl
  · have all : ∀ c ∈ escaped, decide (c ≠ '\'') = true := fun c mem => by
      simpa using fun same : c = '\'' => closed (same ▸ mem)
    have cut : (escaped ++ '\'' :: rest).takeWhile (· ≠ '\'') = escaped := by
      rw [takeWhile_append_of_pos all]
      simp
    simp only [charLength?, cons_append, cut, drop_left]
    rfl

variable {c : Char} {unit rest text behind : List Char} {depth n : Nat}

theorem lengthToClose?_unit (plain : c ≠ '\x7b' ∧ c ≠ '\x7d') (length : unitLength c (unit ++ rest) = unit.length + 1)
    (later : lengthToClose? depth rest = (lengthToClose? depth behind).map (· + n)) :
    lengthToClose? depth (c :: (unit ++ rest)) = (lengthToClose? depth behind).map (· + (n + (unit.length + 1))) := by
  rw [lengthToClose?.eq_def]
  simp [plain, length, later, Function.comp_def, Nat.add_assoc]

theorem unitLength_plain (plain : c ∉ ['"', '\'', '\x7b', '\x7d']) (apart : c = 'r' → ¬ OpensRaw rest) :
    unitLength c rest = 1 := by
  simp only [mem_cons, not_mem_nil, or_false, not_or] at plain
  by_cases letter : c = 'r'
  · subst letter
    simp only [unitLength, if_true]
    split
    · rename_i body opens
      have run : rest.takeWhile (· = '#') = replicate (rest.takeWhile (· = '#')).length '#' :=
        eq_replicate_of_mem fun d mem => by simpa using mem_takeWhile_imp mem
      have whole := prefix_append_drop ( takeWhile_prefix (l := rest) (· = '#'))
      rw [opens, run] at whole
      exact absurd ⟨_, body, whole⟩ (apart rfl)
    · rfl
  · simp [unitLength, letter, plain]

theorem unitLength_string (complete : IsStringBody body) (rest : List Char) :
    unitLength '"' ((body ++ ['"']) ++ rest) = (body ++ ['"']).length + 1 := by
  simp [unitLength, stringLength?_body complete, Nat.add_comm]

theorem unitLength_raw (complete : ¬ rawQuote hashes <:+: body) (rest : List Char) :
    unitLength 'r' ((replicate hashes '#' ++ '"' :: (body ++ rawQuote hashes)) ++ rest) =
      (replicate hashes '#' ++ '"' :: (body ++ rawQuote hashes)).length + 1 := by
  have read := rawLength?_body complete rest
  simp only [rawQuote, cons_append] at read
  simp [unitLength, rawQuote, read]
  omega

theorem unitLength_char (complete : IsCharBody body) (rest : List Char) :
    unitLength '\'' ((body ++ ['\'']) ++ rest) = (body ++ ['\'']).length + 1 := by
  simp [unitLength, charLength?_body complete, Nat.add_comm]

theorem lengthToClose?_passedOver (passed : PassedOver text following) (depth : Nat) :
    lengthToClose? depth (text ++ following) = (lengthToClose? depth following).map (· + text.length) := by
  induction passed generalizing depth with
  | nil => simp
  | @plain c text following plain apart _ ih =>
    have brace : c ≠ '\x7b' ∧ c ≠ '\x7d' := by simp_all
    have length : unitLength c ([] ++ (text ++ following)) = ([] : List Char).length + 1 := unitLength_plain plain apart
    exact lengthToClose?_unit brace length (ih depth)
  | @quote text following idle _ ih =>
    have length : unitLength '\'' ([] ++ (text ++ following)) = ([] : List Char).length + 1 := by simp [unitLength, idle]
    exact lengthToClose?_unit (by decide) length (ih depth)
  | @backslash text following _ ih =>
    have length : unitLength '\'' (['\\', '\''] ++ (text ++ following)) = ['\\', '\''].length + 1 := by
      simp [unitLength, charLength?]
    exact lengthToClose?_unit (by decide) length (ih depth)
  | @char _ text following complete _ ih =>
    have passed := lengthToClose?_unit (by decide) (unitLength_char complete (text ++ following)) (ih depth)
    simpa [Nat.add_assoc, Nat.add_left_comm] using passed
  | @string _ text following complete _ ih =>
    have passed := lengthToClose?_unit (by decide) (unitLength_string complete (text ++ following)) (ih depth)
    simpa [Nat.add_assoc, Nat.add_left_comm] using passed
  | @raw _ _ text following complete _ ih =>
    have passed := lengthToClose?_unit (by decide) (unitLength_raw complete (text ++ following)) (ih depth)
    simpa [rawQuote, Nat.add_assoc, Nat.add_left_comm] using passed
  | @group _ text following _ _ within ih =>
    have closes : lengthToClose? (depth + 1) ('\x7d' :: (text ++ following)) =
        (lengthToClose? depth following).map (· + (text.length + 1)) := by
      rw [lengthToClose?.eq_def]
      simp [ih, Function.comp_def, Nat.add_assoc]
    rw [cons_append, append_assoc, cons_append, lengthToClose?.eq_def]
    simp [within, closes, Function.comp_def, Nat.add_assoc, Nat.add_left_comm]

def IsClosed (code rest : List Char) : Prop := lengthToClose? 0 (code ++ '\x7d' :: rest) = some code.length

end Code
end LiveMarkup.Template
