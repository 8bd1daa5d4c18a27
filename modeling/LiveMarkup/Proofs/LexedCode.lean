import LiveMarkup.Expression.Lexer
import LiveMarkup.Proofs.Leniency
import LiveMarkup.Proofs.Printing
import Mathlib.Data.List.DropRight

/-!
Code in braces and the tokens of that code. The reader of templates looks for the brace that closes code without cutting the
code into tokens: it knows strings, raw strings and characters, takes comments for code, and takes every quote and every `r`
for the beginning of a literal if one can be read from there. Where that does no harm it finds the brace that the tokens
leave open, whatever is behind it, and it takes code for nothing but comments exactly if the tokens are nothing else.
-/

namespace LiveMarkup.Template
open Text Expression List Option

inductive TokenKind where
  | gap | comment | literal | lifetime | word | mark
  deriving DecidableEq, Repr

structure CodeToken where
  kind : TokenKind
  text : List Char
  deriving DecidableEq, Repr

/-- A character of a name or of a number. Nothing outside ASCII is a mark. -/
def isWordChar (c : Char) : Bool := c.isAlphanum || c == '_' || (!isAscii c && !Lexer.isGap c)

def rawMarks : List (List Char) := [['r'], ['b', 'r'], ['c', 'r']]

variable {letters : List Char}

theorem letters_of_rawMark (marked : letters ++ ['r'] ∈ rawMarks) :
    letters = [] ∨ letters = ['b'] ∨ letters = ['c'] := by
  match letters with
  | [] => simp
  | [c] => simpa [rawMarks] using marked
  | c :: d :: letters => simp [rawMarks] at marked

/-- A text in front of another is one token. Words and lifetimes are as long as they can be, and a quote behind a name would
make that name a character. -/
inductive IsToken (following : List Char) : TokenKind → List Char → Prop
  | gap {c : Char} (blank : Lexer.isGap c = true) : IsToken following .gap [c]
  | lineComment {body : List Char} (one : '\n' ∉ body) (ends : following.head?.all (· == '\n')) :
      IsToken following .comment ('/' :: '/' :: body)
  | blockComment {body : List Char} (closed : Lexer.blockComment? 0 body = some []) :
      IsToken following .comment ('/' :: '*' :: body)
  | string {body : List Char} (complete : IsStringBody body) : IsToken following .literal ('"' :: (body ++ ['"']))
  | raw {letters body : List Char} {hashes : Nat} (marked : letters ++ ['r'] ∈ rawMarks)
      (complete : ¬ rawQuote hashes <:+: body) :
      IsToken following .literal (letters ++ 'r' :: (replicate hashes '#' ++ '"' :: (body ++ rawQuote hashes)))
  | char {c : Char} (quote : c ≠ '\'') (escape : c ≠ '\\') : IsToken following .literal ['\'', c, '\'']
  | escape {c : Char} {body : List Char} (closed : '\'' ∉ body) (alone : c = '\'' → body = []) :
      IsToken following .literal ('\'' :: '\\' :: c :: (body ++ ['\'']))
  | lifetime {name : List Char} (some : name ≠ []) (parts : ∀ c ∈ name, isWordChar c = true)
      (whole : ∀ c ∈ following.head?, isWordChar c = false) (apart : following.head? ≠ .some '\'') : IsToken following .lifetime ('\'' :: name)
  | word {text : List Char} (some : text ≠ []) (parts : ∀ c ∈ text, isWordChar c = true)
      (whole : ∀ c ∈ following.head?, isWordChar c = false) (plain : text ∈ rawMarks → ¬ OpensRaw following) :
      IsToken following .word text
  | mark {c : Char} (solid : Lexer.isGap c = false) (part : isWordChar c = false) (quote : c ≠ '"' ∧ c ≠ '\'')
      (comment : c = '/' → following.head? ≠ .some '/' ∧ following.head? ≠ .some '*') : IsToken following .mark [c]

def textOf (tokens : List CodeToken) : List Char := tokens.flatMap CodeToken.text

@[simp] theorem textOf_nil : textOf [] = [] := rfl

@[simp] theorem textOf_cons (token : CodeToken) (tokens : List CodeToken) :
    textOf (token :: tokens) = token.text ++ textOf tokens := rfl

def AreTokens : List CodeToken → Prop
  | [] => True
  | token :: tokens => IsToken (textOf tokens) token.kind token.text ∧ AreTokens tokens

/-- How many braces are open behind tokens; none if one closes that was not open. -/
def openBehind? : Nat → List CodeToken → Option Nat
  | depth, [] => some depth
  | depth, token :: tokens =>
    if token = ⟨.mark, ['\x7b']⟩ then openBehind? (depth + 1) tokens
    else if token = ⟨.mark, ['\x7d']⟩ then
      match depth with
      | 0 => none
      | depth + 1 => openBehind? depth tokens
    else openBehind? depth tokens

section Clearness

variable {body : List Char}

/-- A token that the reader gets over as a whole: a comment is harmless code, no character literal seems to begin at the
last quote of `'\''`, and the letter at the end of a name is not taken for the mark of a raw string. -/
def CodeToken.IsClear (token : CodeToken) (following : List Char) : Prop :=
  match token.kind with
  | .comment => PassedOver token.text following
  | .literal => token.text = ['\'', '\\', '\'', '\''] → Code.charLength? following = none
  | .lifetime | .word => token.text.getLast? = some 'r' → ¬ OpensRaw following
  | .gap | .mark => True

/-- Every token is clear in front of the others and of what is behind them all. -/
def AreClear : List CodeToken → List Char → Prop
  | [], _ => True
  | token :: tokens, behind => token.IsClear (textOf tokens ++ behind) ∧ AreClear tokens behind

variable {c : Char} {rest following near further text name : List Char} {tokens : List CodeToken}

theorem Code.charLength?_name (part : isWordChar c = true) (apart : rest.head? ≠ some '\'') :
    Code.charLength? (c :: rest) = none := by
  unfold Code.charLength?
  split
  · rename_i same
    obtain rfl := (cons.inj same).1
    exact absurd part (by decide)
  · rename_i same
    obtain ⟨_, rfl⟩ := cons.inj same
    exact absurd rfl apart
  · rfl

theorem PassedOver.of_plain (plain : ∀ c ∈ text, c ∉ ['"', '\'', '\x7b', '\x7d', 'r']) (following : List Char) :
    PassedOver text following := by
  induction text with
  | nil => exact .nil
  | cons _ _ ih =>
    obtain ⟨first, others⟩ := forall_mem_cons.mp plain
    refine .plain (fun mem => first ?_) (fun letter => absurd (by simp [letter]) first) (ih others)
    exact mem_append_left ['r'] mem

theorem PassedOver.of_name (parts : ∀ c ∈ name, isWordChar c = true)
    (apart : name.getLast? = some 'r' → ¬ OpensRaw following) : PassedOver name following := by
  induction name with
  | nil => exact .nil
  | cons c name ih =>
    obtain ⟨part, others⟩ := forall_mem_cons.mp parts
    have plain : c ∉ ['"', '\'', '\x7b', '\x7d'] := by
      intro inside
      simp only [mem_cons, not_mem_nil, or_false] at inside
      rcases inside with rfl | rfl | rfl | rfl <;> exact absurd part (by decide)
    cases name with
    | nil => exact .plain plain (fun letter => apart (by rw [letter]; rfl)) .nil
    | cons d =>
      refine .plain plain (fun _ => ?_) (ih others fun last => apart (by rwa [getLast?_cons_cons]))
      rintro ⟨hashes, _, opens⟩
      have part := others d mem_cons_self
      cases hashes with
      | zero =>
        obtain rfl : d = '"' := (cons.inj opens).1
        exact absurd part (by decide)
      | succ =>
        obtain rfl : d = '#' := (cons.inj opens).1
        exact absurd part (by decide)

theorem PassedOver.of_raw {hashes : Nat} (marked : letters ++ ['r'] ∈ rawMarks)
    (complete : ¬ rawQuote hashes <:+: body) :
    PassedOver (letters ++ 'r' :: (replicate hashes '#' ++ '"' :: (body ++ rawQuote hashes))) following := by
  have literal : PassedOver ('r' :: (replicate hashes '#' ++ '"' :: (body ++ rawQuote hashes))) following := by
    have behind : PassedOver [] following := .nil
    simpa using PassedOver.raw complete behind
  obtain rfl | rfl | rfl := letters_of_rawMark marked
  · exact literal
  · exact .plain (by decide) (fun letter => absurd letter (by decide)) literal
  · exact .plain (by decide) (fun letter => absurd letter (by decide)) literal

theorem PassedOver.of_lifetime (some : name ≠ []) (parts : ∀ c ∈ name, isWordChar c = true)
    (quote : following.head? ≠ .some '\'') (apart : name.getLast? = .some 'r' → ¬ OpensRaw following) :
    PassedOver ('\'' :: name) following := by
  obtain ⟨c, name, rfl⟩ := exists_cons_of_ne_nil some
  refine .quote (Code.charLength?_name (parts c mem_cons_self) ?_) (.of_name parts apart)
  cases name with
  | nil => exact quote
  | cons d =>
    have part := parts d (by simp)
    intro same
    obtain rfl : d = '\'' := Option.some.inj same
    exact absurd part (by decide)

theorem PassedOver.of_escape (closed : '\'' ∉ body) (alone : c = '\'' → body = [])
    (clear : '\'' :: '\\' :: c :: (body ++ ['\'']) = ['\'', '\\', '\'', '\''] → Code.charLength? following = none) :
    PassedOver ('\'' :: '\\' :: c :: (body ++ ['\''])) following := by
  by_cases quoted : c = '\''
  · subst quoted
    obtain rfl := alone rfl
    exact .backslash (.quote (clear rfl) .nil)
  · have complete : IsCharBody ('\\' :: c :: body) := .inr ⟨c :: body, rfl, by simp, by simp [closed, Ne.symm quoted]⟩
    exact .char complete .nil

theorem IsToken.passedOver {token : CodeToken} (is_token : IsToken near token.kind token.text)
    (brace : token ≠ ⟨.mark, ['\x7b']⟩ ∧ token ≠ ⟨.mark, ['\x7d']⟩) (clear : token.IsClear (near ++ '\x7d' :: further)) :
    PassedOver token.text (near ++ '\x7d' :: further) := by
  obtain ⟨_, _⟩ := token
  cases is_token with
  | @gap _ blank =>
    refine .of_plain (fun d only mem => ?_) _
    obtain rfl := mem_singleton.mp only
    simp only [mem_cons, not_mem_nil, or_false] at mem
    rcases mem with rfl | rfl | rfl | rfl | rfl <;> exact absurd blank (by decide)
  | lineComment | blockComment => exact clear
  | string complete => exact .string complete .nil
  | raw marked complete => exact .of_raw marked complete
  | @char c quote escape => exact .char (.inl ⟨c, rfl, quote, escape⟩) .nil
  | escape closed alone => exact .of_escape closed alone clear
  | @lifetime _ some parts _ apart =>
    obtain ⟨_, _, rfl⟩ := exists_cons_of_ne_nil some
    refine .of_lifetime some parts ?_ fun last => clear (by rwa [getLast?_cons_cons])
    cases near with
    | nil => simp
    | cons => exact apart
  | word _ parts => exact .of_name parts clear
  | @mark _ _ part quote =>
    refine .of_plain (fun d only mem => ?_) _
    obtain rfl := mem_singleton.mp only
    simp only [mem_cons, not_mem_nil, or_false] at mem
    rcases mem with rfl | rfl | rfl | rfl | rfl
    · exact quote.1 rfl
    · exact quote.2 rfl
    · exact brace.1 rfl
    · exact brace.2 rfl
    · exact absurd part (by decide)

theorem lengthToClose?_tokens (are : AreTokens tokens) (clear : AreClear tokens ('\x7d' :: further)) {depth opened : Nat}
    (balanced : openBehind? depth tokens = some opened) :
    Code.lengthToClose? depth (textOf tokens ++ '\x7d' :: further) =
      (Code.lengthToClose? opened ('\x7d' :: further)).map (· + (textOf tokens).length) := by
  induction tokens generalizing depth with
  | nil =>
    obtain rfl := some.inj balanced
    simp
  | cons _ tokens ih =>
    have later (deeper) (balanced : openBehind? deeper tokens = some opened) := ih are.2 clear.2 balanced
    rw [openBehind?.eq_def] at balanced
    dsimp only at balanced
    split at balanced
    · rename_i opening
      subst opening
      rw [textOf_cons, singleton_append, cons_append, Code.lengthToClose?.eq_def]
      simp [later _ balanced, Function.comp_def, Nat.add_assoc]
    split at balanced
    · rename_i _ closing
      subst closing
      cases depth with
      | zero => cases balanced
      | succ =>
        rw [textOf_cons, singleton_append, cons_append, Code.lengthToClose?.eq_def]
        simp [later _ balanced, Function.comp_def, Nat.add_assoc]
    · rename_i opening closing
      have passed := Code.lengthToClose?_passedOver (are.1.passedOver ⟨opening, closing⟩ clear.1) depth
      rw [textOf_cons, append_assoc, passed, later _ balanced]
      simp [Function.comp_def, Nat.add_assoc, Nat.add_comm (textOf tokens).length]

end Clearness

section Remarks
open Markup (splitOnceAt_eq splitOnceAt_some_plain splitOnceAt_none_plain splitOnceAt_opening)
variable {body gap : List Char} {c : Char} {before rest cs : List Char}

def CodeToken.isRemark (token : CodeToken) : Bool := token.kind == .gap || token.kind == .comment

/-- Blanks in front of code are cut off, and a comment ends where one inside it would. -/
def CodeToken.IsTidy (token : CodeToken) : Prop :=
  match token.kind with
  | .gap => ∀ c ∈ token.text, isBlank c = true
  | .comment => ∀ body, token.text = '/' :: '*' :: body → ¬ "/*".toList <:+: body
  | _ => True

theorem isCommentOnly_eq (cs : List Char) : isCommentOnly cs = match trimStart cs with
    | [] => true
    | '/' :: '*' :: body =>
      match splitOnceAt "*/".toList body with
      | some (_, after) => isCommentOnly after
      | none => false
    | '/' :: '/' :: body => isCommentOnly (body.dropWhile (· ≠ '\n'))
    | _ => false := by
  rw [isCommentOnly]
  split
  · rename_i here
    rw [here]
  · rename_i body here
    rw [here]
    split
    · rename_i before after found
      have behind : body.drop (before.length + 2) = after := by
        rw [splitOnceAt_eq found, ← append_assoc]
        exact drop_left' (by simp)
      simp only [found, behind]
    · rename_i missing
      simp only [missing]
  · rename_i body here
    rw [here]
    rfl
  · rename_i blank block line
    split
    · exact absurd ‹_› blank
    · exact absurd ‹_› (block _)
    · exact absurd ‹_› (line _)
    · rfl

theorem isCommentOnly_cons_blank (blank : isBlank c = true) (cs : List Char) : isCommentOnly (c :: cs) = isCommentOnly cs := by
  rw [isCommentOnly_eq, isCommentOnly_eq cs, trimStart, dropWhile_cons_of_pos blank, ← trimStart]

theorem trimStart_of_solid (solid : isBlank c = false) (cs : List Char) : trimStart (c :: cs) = c :: cs :=
  dropWhile_cons_of_neg (by simp [solid])

theorem isCommentOnly_trimStart (cs : List Char) : isCommentOnly (trimStart cs) = isCommentOnly cs := by
  have same : trimStart (trimStart cs) = trimStart cs := dropWhile_idempotent ..
  rw [isCommentOnly_eq, same, ← isCommentOnly_eq]

theorem isCommentOnly_of_blanks (blank : ∀ c ∈ cs, isBlank c = true) : isCommentOnly cs = true := by
  have none : trimStart cs = [] := dropWhile_eq_nil_iff.mpr blank
  rw [isCommentOnly_eq, none]

theorem isCommentOnly_line (one : '\n' ∉ body) (ends : rest.head?.all (· == '\n')) :
    isCommentOnly ('/' :: '/' :: (body ++ rest)) = isCommentOnly rest := by
  have all : ∀ c ∈ body, decide (c ≠ '\n') = true := fun c mem => by
    simpa using fun same : c = '\n' => one (same ▸ mem)
  have stop : rest.dropWhile (· ≠ '\n') = rest := by
    cases rest with
    | nil => rfl
    | cons c =>
      obtain rfl : c = '\n' := by simpa using ends
      rfl
  rw [isCommentOnly_eq, trimStart_of_solid (by decide)]
  show isCommentOnly ((body ++ rest).dropWhile (· ≠ '\n')) = isCommentOnly rest
  rw [dropWhile_append_of_pos all, stop]

theorem splitOnceAt_blockEnd (plain : ¬ "*/".toList <:+: before) (rest : List Char) :
    splitOnceAt "*/".toList (before ++ ("*/".toList ++ rest)) = some (before, rest) :=
  @splitOnceAt_opening '*' ['/'] before (by decide) plain rest

theorem isCommentOnly_block (plain : ¬ "*/".toList <:+: before) (rest : List Char) :
    isCommentOnly ('/' :: '*' :: (before ++ ("*/".toList ++ rest))) = isCommentOnly rest := by
  rw [isCommentOnly_eq, trimStart_of_solid (by decide)]
  simp only [splitOnceAt_blockEnd plain]

theorem isCommentOnly_of_solid (solid : isBlank c = false) (comment : c = '/' → cs.head? ≠ some '/' ∧ cs.head? ≠ some '*') :
    isCommentOnly (c :: cs) = false := by
  rw [isCommentOnly_eq, trimStart_of_solid solid]
  split
  · contradiction
  · rename_i same
    obtain ⟨rfl, rfl⟩ := cons.inj same
    exact absurd rfl (comment rfl).2
  · rename_i same
    obtain ⟨rfl, rfl⟩ := cons.inj same
    exact absurd rfl (comment rfl).1
  · rfl

theorem trimStart_append_blanks (blank : ∀ c ∈ gap, isBlank c = true) (cs : List Char) :
    trimStart (cs ++ gap) = if trimStart cs = [] then [] else trimStart cs ++ gap := by
  have none : trimStart gap = [] := dropWhile_eq_nil_iff.mpr blank
  rw [trimStart, dropWhile_append, ← trimStart, ← trimStart, none]
  simp

theorem splitOnceAt_blockEnd_none (missing : splitOnceAt "*/".toList body = none) (apart : '*' ∉ gap ∧ '/' ∉ gap) :
    splitOnceAt "*/".toList (body ++ gap) = none := by
  cases found : splitOnceAt "*/".toList (body ++ gap) with
  | none => rfl
  | some parts =>
    obtain ⟨before, after⟩ := parts
    have plain := splitOnceAt_none_plain missing
    rcases append_eq_append_iff.mp (splitOnceAt_eq found) with ⟨more, _, mem⟩ | ⟨more, whole, mem⟩
    · exact absurd (mem ▸ by simp : '*' ∈ gap) apart.1
    · change '*' :: '/' :: after = more ++ gap at mem
      match more with
      | [] => exact absurd ((show _ = gap from mem) ▸ mem_cons_self : '*' ∈ gap) apart.1
      | [c] => exact absurd ((show _ = gap from (cons.inj mem).2) ▸ mem_cons_self : '/' ∈ gap) apart.2
      | c :: d :: more =>
        obtain ⟨rfl, rest⟩ := cons.inj mem
        obtain ⟨rfl, _⟩ := cons.inj rest
        exact absurd ⟨before, more, by rw [whole]; simp⟩ plain

theorem isCommentOnly_append_blanks {gap : List Char} (blank : ∀ c ∈ gap, isBlank c = true) (cs : List Char) :
    isCommentOnly (cs ++ gap) = isCommentOnly cs := by
  have none (c : Char) (solid : isBlank c = false) : c ∉ gap := fun mem => by simp [blank c mem] at solid
  fun_induction isCommentOnly cs with
  | case1 _ here => rw [isCommentOnly_eq, trimStart_append_blanks blank, if_pos here]
  | case2 _ body here before after found ih =>
    have whole := splitOnceAt_eq found
    have behind : body.drop (before.length + 2) = after := by
      rw [whole, ← append_assoc]
      exact drop_left' (by simp)
    have again : splitOnceAt "*/".toList (body ++ gap) = some (before, after ++ gap) := by
      rw [whole, append_assoc, append_assoc]
      exact splitOnceAt_blockEnd (splitOnceAt_some_plain (by decide) found) _
    rw [behind] at ih ⊢
    rw [isCommentOnly_eq, trimStart_append_blanks blank, here]
    simp only [reduceCtorEq, if_false, cons_append, again, ih]
  | case3 _ _ here missing =>
    rw [isCommentOnly_eq, trimStart_append_blanks blank, here]
    simp only [reduceCtorEq, if_false, cons_append,
      splitOnceAt_blockEnd_none missing ⟨none '*' (by decide), none '/' (by decide)⟩]
  | case4 _ _ here ih =>
    rw [isCommentOnly_eq, trimStart_append_blanks blank, here]
    simp only [reduceCtorEq, if_false, cons_append]
    rw [dropWhile_append]
    split
    · rename_i ended
      rw [isEmpty_iff.mp ended, isCommentOnly_of_blanks fun c mem => blank c (dropWhile_subset _ mem),
        isCommentOnly_of_blanks (by simp)]
    · exact ih
  | case5 _ empty block line =>
    obtain ⟨_, rest, here⟩ := exists_cons_of_ne_nil empty
    rw [← isCommentOnly_trimStart, trimStart_append_blanks blank, if_neg empty, here]
    refine isCommentOnly_of_solid (Markup.Piece.trimStart_cons_not_blank here) fun slash => ?_
    subst slash
    cases rest with
    | nil =>
      have head : gap.head? ≠ some '/' ∧ gap.head? ≠ some '*' :=
        ⟨fun first => none '/' (by decide) (mem_of_mem_head? first), fun first => none '*' (by decide) (mem_of_mem_head? first)⟩
      exact head
    | cons d rest =>
      refine ⟨fun second => ?_, fun second => ?_⟩
      · obtain rfl : d = '/' := some.inj second
        exact line rest here
      · obtain rfl : d = '*' := some.inj second
        exact block rest here

theorem isCommentOnly_trim (cs : List Char) : isCommentOnly (trim cs) = isCommentOnly cs := by
  have whole : trim cs ++ ((trimStart cs).reverse.takeWhile isBlank).reverse = trimStart cs := by
    rw [trim, trimEnd, ← reverse_append, takeWhile_append_dropWhile, reverse_reverse]
  have blank : ∀ c ∈ ((trimStart cs).reverse.takeWhile isBlank).reverse, isBlank c = true := fun c mem =>
    mem_takeWhile_imp (mem_reverse.mp mem)
  rw [← isCommentOnly_append_blanks blank, whole, isCommentOnly_trimStart]

theorem splitOnceAt_of_flat (closed : Lexer.blockComment? 0 body = some rest) (flat : ¬ "/*".toList <:+: body) :
    ∃ before, splitOnceAt "*/".toList body = some (before, rest) := by
  induction body with
  | nil => cases closed
  | cons c body ih =>
    unfold Lexer.blockComment? at closed
    split at closed
    · cases closed
    · rename_i same
      exact absurd (same ▸ IsPrefix.isInfix (by simp)) flat
    · rename_i same
      obtain ⟨rfl, rfl⟩ := cons.inj same
      obtain rfl := some.inj closed
      exact ⟨[], rfl⟩
    · rename_i opening closing same
      obtain ⟨rfl, rfl⟩ := cons.inj same
      obtain ⟨before, found⟩ := ih closed fun mem => flat (infix_cons mem)
      have apart : "*/".toList.isPrefixOf (c :: body) = false := by
        refine Bool.eq_false_iff.mpr fun starts => ?_
        obtain ⟨more, whole⟩ := isPrefixOf_iff_prefix.mp starts
        exact closing more (cons.inj whole).1.symm (cons.inj whole).2.symm
      refine ⟨c :: before, ?_⟩
      rw [splitOnceAt, apart, found]
      rfl

theorem isBlank_of_isWordChar (part : isWordChar c = true) : isBlank c = false := by
  simp only [isWordChar, Bool.or_eq_true, beq_iff_eq, Bool.and_eq_true, Bool.not_eq_true'] at part
  rcases part with (letter | rfl) | ⟨_, solid⟩
  · exact (Markup.isNameChar_iff.mp (Markup.isNameChar_of_isAlphanum letter)).1
  · rfl
  · simp only [Lexer.isGap, Bool.or_eq_false_iff] at solid
    exact solid.1.1

theorem IsToken.solid {kind : TokenKind} (is_token : IsToken near kind text) (other : kind ≠ .gap ∧ kind ≠ .comment) :
    ∃ c rest, text = c :: rest ∧ isBlank c = false ∧
      (c = '/' → (rest ++ near).head? ≠ some '/' ∧ (rest ++ near).head? ≠ some '*') := by
  cases is_token with
  | gap => exact absurd rfl other.1
  | lineComment | blockComment => exact absurd rfl other.2
  | string => exact ⟨'"', _, rfl, rfl, fun slash => absurd slash (by decide)⟩
  | raw marked =>
    obtain rfl | rfl | rfl := letters_of_rawMark marked
    · exact ⟨'r', _, rfl, rfl, fun slash => absurd slash (by decide)⟩
    · exact ⟨'b', _, rfl, rfl, fun slash => absurd slash (by decide)⟩
    · exact ⟨'c', _, rfl, rfl, fun slash => absurd slash (by decide)⟩
  | char | escape | lifetime => exact ⟨'\'', _, rfl, rfl, fun slash => absurd slash (by decide)⟩
  | word some parts =>
    obtain ⟨c, rest, rfl⟩ := exists_cons_of_ne_nil some
    have part := parts c mem_cons_self
    refine ⟨c, rest, rfl, isBlank_of_isWordChar part, fun slash => ?_⟩
    subst slash
    exact absurd part (by decide)
  | @mark c solid _ _ comment =>
    simp only [Lexer.isGap, Bool.or_eq_false_iff] at solid
    exact ⟨c, [], rfl, solid.1.1, comment⟩

theorem isCommentOnly_textOf (are : AreTokens tokens) (tidy : ∀ token ∈ tokens.takeWhile (·.isRemark), token.IsTidy) :
    isCommentOnly (textOf tokens) = tokens.all (·.isRemark) := by
  induction tokens with
  | nil => exact isCommentOnly_of_blanks (by simp)
  | cons token _ ih =>
    obtain ⟨first, others⟩ := are
    obtain ⟨kind, text⟩ := token
    by_cases remark : (⟨kind, text⟩ : CodeToken).isRemark = true
    · rw [takeWhile_cons_of_pos remark] at tidy
      obtain ⟨neat, tidy⟩ := forall_mem_cons.mp tidy
      rw [all_cons, remark, Bool.true_and, ← ih others tidy, textOf_cons]
      cases first with
      | gap => exact isCommentOnly_cons_blank (neat _ mem_cons_self) _
      | lineComment one ends => exact isCommentOnly_line one ends
      | @blockComment body closed =>
        obtain ⟨_, found⟩ := splitOnceAt_of_flat closed (neat body rfl)
        have whole := splitOnceAt_eq found
        rw [append_nil] at whole
        rw [cons_append, cons_append, whole, append_assoc]
        exact isCommentOnly_block (splitOnceAt_some_plain (by decide) found) _
      | _ => cases remark
    · obtain ⟨_, _, rfl, solid, comment⟩ := first.solid (by simpa [CodeToken.isRemark] using remark)
      rw [all_cons, Bool.eq_false_iff.mpr remark, Bool.false_and, textOf_cons, cons_append]
      exact isCommentOnly_of_solid solid comment

end Remarks

end LiveMarkup.Template
