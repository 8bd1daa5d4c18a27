import LiveMarkup.Proofs.Leaves
import LiveMarkup.Proofs.Places

/-!
Code cut into tokens, each with its spelling. What the lexer takes in one step is the same wherever it is put between
blanks, brackets, commas and semicolons.
-/

namespace LiveMarkup.Expression
open Text List Option Prod
open Template (moved)

/-- A token as it is spelled; `joined` says that an operator may go on with the next character. -/
structure Spelled where
  text : List Char
  joined : Bool := false
  deriving DecidableEq, Repr

namespace Lexer

def operatorChars : List Char := "!%&*+-./:<=>^|".toList

def startsOperator (cs : List Char) : Bool := isPunct cs && (cs.head?.map (operatorChars.contains ·)).getD false

def spell (text rest : List Char) : Spelled := ⟨text, text.length == 1 && startsOperator text && startsOperator rest⟩

/-- What the lexer takes in one step. A documentation comment is kept as it is spelled. -/
inductive Cut where
  | gap
  | comment (line : Bool)
  | doc (line : Bool) (text : List Char)
  | token (spelled : Spelled)
  deriving DecidableEq, Repr

namespace Cut

def spelled? : Cut → Option Spelled
  | .doc _ text => some ⟨text, false⟩
  | .token spelled => some spelled
  | _ => none

def isLine : Cut → Bool
  | .comment line => line
  | .doc line _ => line
  | _ => false

end Cut

def cut? : List Char → Option (Cut × List Char)
  | [] => none
  | c :: cs =>
    let taken (rest : List Char) : List Char := (c :: cs).take (cs.length + 1 - rest.length)
    if isGap c then some (.gap, cs)
    else match skipComment? (c :: cs) with
      | some rest => some (.comment (isLineComment (c :: cs)), rest)
      | none =>
        match docComment? (c :: cs) with
        | some (_, rest) => some (.doc (startsWith "//" (c :: cs)) (taken rest), rest)
        | none =>
          if (opening? c).isSome || (closing? c).isSome then some (.token ⟨[c], false⟩, cs)
          else (leaf? (c :: cs)).map fun (_, rest) => (.token (spell (taken rest) rest), rest)

inductive Cuts : List Char → List Cut → Prop
  | nil : Cuts [] []
  | cons {cs rest : List Char} {cut : Cut} {cuts : List Cut} (first : cut? cs = some (cut, rest)) (others : Cuts rest cuts) :
      Cuts cs (cut :: cuts)

section Spelling

variable {a b : List Char}

theorem startsOperator_similar (similar : Similar a b) : startsOperator a = startsOperator b := by
  obtain ⟨same, s, t, rfl, rfl, one, two⟩ := similar
  cases same with
  | nil =>
    have none {s : List Char} (stopped : Stopped s) : startsOperator s = false := by
      have head := head_append_stopped (p := (operatorChars.contains ·)) (fails_at_stops (by decide)) [] stopped
      rw [startsOperator, show (s.head?.map (operatorChars.contains ·)).getD false = false from head, Bool.and_false]
    rw [nil_append, nil_append, none one, none two]
  | cons c same =>
    have rest : Similar (same ++ s) (same ++ t) := ⟨same, s, t, rfl, rfl, one, two⟩
    rw [cons_append, cons_append, startsOperator, startsOperator, isPunct_cons c rest]
    rfl

theorem spell_similar (text : List Char) (similar : Similar a b) : spell text a = spell text b := by
  rw [spell, spell, startsOperator_similar similar]

end Spelling


section Comments

variable {cs rest : List Char} {n : Nat} {depth : Nat}

theorem moved_cons (n : Nat) (c : Char) (cs : List Char) :
    moved n (c :: cs) = (if c = '\n' then '\n' :: replicate n ' ' else [c]) ++ moved n cs := rfl

theorem moved_append (n : Nat) (a b : List Char) : moved n (a ++ b) = moved n a ++ moved n b := flatMap_append

theorem moved_line (n : Nat) {cs : List Char} (line : '\n' ∉ cs) : moved n cs = cs := by
  induction cs with
  | nil => rfl
  | cons _ _ ih =>
    rw [mem_cons, not_or] at line
    rw [moved_cons, if_neg fun same => line.1 same.symm, ih line.2]
    rfl

theorem similar_moved (n : Nat) (cs : List Char) : Similar cs (moved n cs) := by
  by_cases line : '\n' ∈ cs
  · obtain ⟨before, behind, rfl, first⟩ := eq_append_cons_of_mem line
    refine ⟨before, '\n' :: behind, moved n ('\n' :: behind), rfl, ?_, fun c head => ?_, fun c head => ?_⟩
    · rw [moved_append, moved_line n first]
    · cases head
      decide
    · cases head
      decide
  · rw [moved_line n line]
    exact ⟨cs, [], [], (append_nil cs).symm, (append_nil cs).symm, nofun, nofun⟩

theorem head?_moved (n : Nat) (cs : List Char) : (moved n cs).head? = cs.head? := by
  cases cs with
  | nil => rfl
  | cons =>
    rw [moved_cons]
    split
    · rename_i line
      rw [line]
      rfl
    · rfl

theorem blockComment?_plain {c : Char} (slash : c ≠ '/') (star : c ≠ '*') (cs : List Char) :
    blockComment? depth (c :: cs) = blockComment? depth cs :=
  blockComment?.eq_4 depth c cs (fun _ same => absurd same slash) fun _ same => absurd same star

theorem blockComment?_blanks (depth n : Nat) (cs : List Char) :
    blockComment? depth (replicate n ' ' ++ cs) = blockComment? depth cs := by
  induction n with
  | zero => rfl
  | succ _ ih => rw [replicate_succ, cons_append, blockComment?_plain (by decide) (by decide), ih]

theorem blockComment?_local (found : blockComment? depth cs = some rest) :
    ∃ u, 2 ≤ u.length ∧ cs = u ++ rest ∧ (∀ more, blockComment? depth (u ++ more) = some more) ∧
      ∀ more, blockComment? depth (moved n u ++ more) = some more := by
  induction depth, cs using blockComment?.induct with
  | case1 => cases found
  | case2 _ _ ih =>
    obtain ⟨u, _, rfl, again, moved⟩ := ih found
    exact ⟨'/' :: '*' :: u, by simp, rfl, fun more => by simp [blockComment?, again],
      fun more => by simp [moved_cons, blockComment?, moved]⟩
  | case3 =>
    obtain rfl := some.inj found
    exact ⟨['*', '/'], by simp, rfl, fun more => rfl, fun more => rfl⟩
  | case4 _ _ mem ih =>
    rw [blockComment?, if_neg mem] at found
    obtain ⟨u, _, rfl, again, moved⟩ := ih found
    exact ⟨'*' :: '/' :: u, by simp, rfl, fun more => by simp [blockComment?, again, mem],
      fun more => by simp [moved_cons, blockComment?, moved, mem]⟩
  | case5 depth c cs opens closes ih =>
    rw [blockComment?.eq_4 depth c cs opens closes] at found
    obtain ⟨u, long, rfl, again, shifts⟩ := ih found
    -- neither mark begins here, since what follows is not what would complete it
    have head (u' more : List Char) (same : u'.head? = u.head?) (solid : u' ≠ []) :
        blockComment? depth (c :: (u' ++ more)) = blockComment? depth (u' ++ more) := by
      have first : (u' ++ more).head? = (u ++ rest).head? := by
        rw [head?_append_of_ne_nil _ solid, same, head?_append_of_ne_nil _ (ne_nil_of_length_pos (by omega))]
      refine blockComment?.eq_4 depth c _ (fun behind start next => ?_) (fun behind start next => ?_)
      · rw [next] at first
        obtain ⟨w, same⟩ := head?_eq_some_iff.mp first.symm
        exact opens w start same
      · rw [next] at first
        obtain ⟨w, same⟩ := head?_eq_some_iff.mp first.symm
        exact closes w start same
    refine ⟨c :: u, by rw [length_cons]; omega, rfl, fun more => ?_, fun more => ?_⟩
    · rw [cons_append, head u more rfl (ne_nil_of_length_pos (by omega)), again]
    · rw [moved_cons]
      split
      · rw [append_assoc, cons_append, blockComment?_plain (by decide) (by decide)]
        rw [blockComment?_blanks, shifts]
      · have solid : moved n u ≠ [] := by
          intro nothing
          have first := head?_moved n u
          rw [nothing] at first
          rw [head?_eq_none_iff.mp first.symm] at long
          cases long
        rw [singleton_append, cons_append, head (moved n u) more (head?_moved n u) solid, shifts]

theorem skipComment?_cases (found : skipComment? cs = some rest) :
    (isLineComment cs = true ∧ rest = cs.dropWhile (· ≠ '\n')) ∨
      (isLineComment cs = false ∧ startsWith "/*" cs = true ∧ startsWith "/*!" cs = false ∧ blockComment? 0 (cs.drop 2) = some rest) := by
  rw [skipComment?] at found
  split at found
  · rename_i line
    exact .inl ⟨line, (some.inj found).symm⟩
  · rename_i line
    have line : isLineComment cs = false := by simpa using line
    refine .inr ?_
    split at found
    · rename_i short
      obtain ⟨_, rfl⟩ := isPrefixOf_iff_prefix.mp short
      refine ⟨line, by simp [startsWith], by simp [startsWith, isPrefixOf], ?_⟩
      rw [← found]
      rfl
    · obtain ⟨block, found⟩ := ite_none_right_eq_some.mp found
      simp only [isBlockComment, Bool.and_eq_true, Bool.not_eq_true'] at block
      exact ⟨line, block.1.1, block.2, found⟩

end Comments

section Cutting

variable {cs rest : List Char} {cut : Cut} {n : Nat} {inner : Bool} {c : Char} {text : String} {token : Token}

theorem cut?_gap (gap : isGap c = true) (cs : List Char) : cut? (c :: cs) = some (.gap, cs) := by
  simp [cut?, gap]

theorem not_gap_of_slash {cs : List Char} (slash : cs.head? = some '/') : ∃ w, cs = '/' :: w ∧ isGap '/' = false := by
  obtain ⟨w, rfl⟩ := head?_eq_some_iff.mp slash
  exact ⟨w, rfl, by decide⟩

theorem slash_of_comment (comment : startsWith "//" cs = true ∨ startsWith "/*" cs = true) : cs.head? = some '/' := by
  obtain begins | begins := comment <;>
    · obtain ⟨_, rfl⟩ := isPrefixOf_iff_prefix.mp begins
      rfl

theorem startsWith_longer (none : startsWith text cs = false) (longer : String)
    (same : text.toList <+: longer.toList) : startsWith longer cs = false := by
  rw [Bool.eq_false_iff] at none ⊢
  exact fun begins => none ( isPrefixOf_iff_prefix.mpr (same.trans ( isPrefixOf_iff_prefix.mp begins)))

theorem no_comment (line : startsWith "//" cs = false) (block : startsWith "/*" cs = false) :
    skipComment? cs = none ∧ docComment? cs = none := by
  constructor
  · rw [skipComment?, isLineComment, line, isBlockComment, block, startsWith_longer block "/**/" (by decide)]
    rfl
  · rw [docComment?, startsWith_longer line "//!" (by decide), startsWith_longer block "/*!" (by decide),
      startsWith_longer line "///" (by decide), startsWith_longer block "/**" (by decide)]
    rfl

theorem leaf_no_comment (found : leaf? cs = some (token, rest)) :
    startsWith "//" cs = false ∧ startsWith "/*" cs = false := by
  by_contra comment
  have begins : startsWith "//" cs = true ∨ startsWith "/*" cs = true := by
    cases line : startsWith "//" cs <;> cases block : startsWith "/*" cs <;> simp_all
  obtain ⟨w, rfl⟩ := head?_eq_some_iff.mp (slash_of_comment begins)
  obtain literal | ⟨-, word⟩ := or_eq_some_iff.mp found
  · obtain literal | ⟨-, punct⟩ := or_eq_some_iff.mp literal
    · obtain ⟨⟨_, _⟩, read, -⟩ := map_eq_some_iff.mp literal
      obtain quoted | ⟨-, number⟩ := or_eq_some_iff.mp read
      · rw [quotation_none (by decide)] at quoted
        cases quoted
      · obtain ⟨_, _, same, digit⟩ := number_start number
        rw [← (cons.inj same).1] at digit
        exact absurd digit (by decide)
    · obtain ⟨_, same, punct⟩ := punct_start punct
      simp only [← same, isPunct, Bool.and_eq_true, Bool.not_eq_true'] at punct
      exact comment punct.1
  · obtain ⟨⟨_, _⟩, ident, -⟩ := map_eq_some_iff.mp word
    obtain ⟨_, _, same, start⟩ := ident?_start ident
    rw [← (cons.inj same).1] at start
    exact absurd start (by decide)

def isBracket (c : Char) : Bool := (opening? c).isSome || (closing? c).isSome

theorem cut?_comment (found : skipComment? cs = some rest) : cut? cs = some (.comment (isLineComment cs), rest) := by
  have slash : cs.head? = some '/' := by
    refine slash_of_comment ?_
    obtain ⟨line, -⟩ | ⟨-, block, -⟩ := skipComment?_cases found
    · simp only [isLineComment, Bool.and_eq_true] at line
      exact .inl line.1.1
    · exact .inr block
  obtain ⟨_, rfl, solid⟩ := not_gap_of_slash slash
  simp [cut?, solid, found]

theorem cut?_doc (none : skipComment? cs = none) (found : docComment? cs = some (inner, rest)) :
    cut? cs = some (.doc (startsWith "//" cs) (cs.take (cs.length - rest.length)), rest) := by
  have slash : cs.head? = some '/' := by
    refine slash_of_comment ?_
    by_contra comment
    rw [not_or, Bool.not_eq_true, Bool.not_eq_true] at comment
    rw [(no_comment comment.1 comment.2).2] at found
    cases found
  obtain ⟨_, rfl, solid⟩ := not_gap_of_slash slash
  simp [cut?, solid, none, found]

theorem bracket_cases (bracket : isBracket c = true) : c ∈ ['(', '[', '\x7b', ')', ']', '\x7d'] := by
  revert bracket
  unfold isBracket opening? closing?
  split <;> split <;> simp

theorem cut?_bracket (bracket : isBracket c = true) (cs : List Char) : cut? (c :: cs) = some (.token ⟨[c], false⟩, cs) := by
  have solid : isGap c = false := by
    have none : ['(', '[', '\x7b', ')', ']', '\x7d'].all (!isGap ·) = true := by decide
    simpa using all_eq_true.mp none c (bracket_cases bracket)
  have slash : c ≠ '/' := by
    rintro rfl
    exact absurd bracket (by decide)
  have none : skipComment? (c :: cs) = none ∧ docComment? (c :: cs) = none :=
    no_comment (by simp [startsWith, isPrefixOf, slash.symm]) (by simp [startsWith, isPrefixOf, slash.symm])
  rw [isBracket] at bracket
  simp [cut?, solid, none, bracket]

theorem cut?_leaf (solid : ∀ c ∈ cs.head?, isGap c = false ∧ isBracket c = false)
    (found : leaf? cs = some (token, rest)) :
    cut? cs = some (.token (spell (cs.take (cs.length - rest.length)) rest), rest) := by
  obtain ⟨line, block⟩ := leaf_no_comment found
  have none := no_comment line block
  cases cs with
  | nil => cases found
  | cons c =>
    obtain ⟨gap, bracket⟩ := solid c rfl
    rw [isBracket] at bracket
    simp [cut?, gap, bracket, none, found]

theorem cut?_cases (found : cut? cs = some (cut, rest)) : (∃ c, cs = c :: rest ∧ isGap c = true ∧ cut = .gap) ∨
      (skipComment? cs = some rest ∧ cut = .comment (isLineComment cs)) ∨
      (skipComment? cs = none ∧ (∃ inner, docComment? cs = some (inner, rest)) ∧
        cut = .doc (startsWith "//" cs) (cs.take (cs.length - rest.length))) ∨
      (∃ c, cs = c :: rest ∧ isBracket c = true ∧ cut = .token ⟨[c], false⟩) ∨
      (∀ c ∈ cs.head?, isGap c = false ∧ isBracket c = false) ∧ (∃ token, leaf? cs = some (token, rest)) ∧
        cut = .token (spell (cs.take (cs.length - rest.length)) rest) := by
  cases cs with
  | nil => cases found
  | cons c =>
    rw [cut?] at found
    dsimp only at found
    split at found
    · rename_i gap
      obtain ⟨rfl, rfl⟩ := mk.inj (some.inj found)
      exact .inl ⟨c, rfl, gap, rfl⟩
    · rename_i gap
      split at found
      · rename_i comment
        obtain ⟨rfl, rfl⟩ := mk.inj (some.inj found)
        exact .inr (.inl ⟨comment, rfl⟩)
      · rename_i comment
        split at found
        · rename_i inner behind doc
          obtain ⟨rfl, rfl⟩ := mk.inj (some.inj found)
          exact .inr (.inr (.inl ⟨comment, ⟨inner, doc⟩, rfl⟩))
        · split at found
          · rename_i bracket
            obtain ⟨rfl, rfl⟩ := mk.inj (some.inj found)
            exact .inr (.inr (.inr (.inl ⟨c, rfl, bracket, rfl⟩)))
          · rename_i bracket
            obtain ⟨⟨token, _⟩, leaf, same⟩ := map_eq_some_iff.mp found
            obtain ⟨rfl, rfl⟩ := mk.inj same
            refine .inr (.inr (.inr (.inr ⟨?_, ⟨token, leaf⟩, rfl⟩)))
            intro d first
            obtain rfl := some.inj first
            exact ⟨by simpa using gap, by simpa [isBracket] using bracket⟩

theorem take_length_append (u rest : List Char) : (u ++ rest).take ((u ++ rest).length - rest.length) = u := by
  rw [length_append, Nat.add_sub_cancel_right, take_left]

theorem startsWith_between (short : text.length ≤ 4) (other : text.toList.all (!stops.contains ·) = true)
    {u u' : List Char} (long : 4 ≤ u.length) (long' : 4 ≤ u'.length) (similar : Similar u u') (rest more : List Char) :
    startsWith text (u' ++ more) = startsWith text (u ++ rest) := by
  rw [startsWith_of_le (short.trans long), startsWith_of_le (short.trans long'), startsWith_similar other similar]

section Blocks

variable {u u' more : List Char} (long : 4 ≤ u.length) (long' : 4 ≤ u'.length) (similar : Similar u u')
include long long' similar

theorem comments_between (rest more : List Char) : isLineComment (u' ++ more) = isLineComment (u ++ rest) ∧
    isBlockComment (u' ++ more) = isBlockComment (u ++ rest) := by
  have same {text : String} (short : text.length ≤ 4) (other : text.toList.all (!stops.contains ·) = true) :=
    startsWith_between short other long long' similar rest more
  rw [isLineComment, isLineComment, isBlockComment, isBlockComment]
  repeat rw [same (by decide) (by decide)]
  exact ⟨rfl, rfl⟩

theorem skipComment?_between (found : skipComment? (u ++ rest) = some rest) (closed : isLineComment (u ++ rest) = false)
    (again : blockComment? 0 ((u' ++ more).drop 2) = some more) : skipComment? (u' ++ more) = some more := by
  rw [skipComment?, closed] at found
  rw [skipComment?, (comments_between long long' similar rest more).1, closed, (comments_between long long' similar rest more).2]
  have empty := startsWith_between (show "/**/".length ≤ 4 by decide) (by decide) long long' similar rest more
  rw [empty]
  by_cases short : startsWith "/**/" (u ++ rest) = true
  · rw [short] at empty
    obtain ⟨_, same⟩ := isPrefixOf_iff_prefix.mp empty
    rw [← same] at again ⊢
    simpa [short, blockComment?] using again
  · simp only [short, Bool.false_eq_true, if_false] at found ⊢
    rw [if_pos (ite_none_right_eq_some.mp found).1, again]

end Blocks

theorem block_of_startsWith (block : startsWith "/*" cs = true) : ∃ body, cs = '/' :: '*' :: body := by
  obtain ⟨body, rfl⟩ := isPrefixOf_iff_prefix.mp block
  exact ⟨body, rfl⟩

theorem length_moved (n : Nat) (cs : List Char) : cs.length ≤ (moved n cs).length := by
  induction cs with
  | nil => exact Nat.le_refl 0
  | cons =>
    rw [moved_cons, length_append]
    split <;> simp only [length_cons, length_nil] <;> omega

theorem cut?_block (n : Nat) (comment : skipComment? cs = some rest) (closed : isLineComment cs = false) :
    ∃ u, u ≠ [] ∧ cs = u ++ rest ∧ (∀ more, cut? (u ++ more) = some (.comment false, more)) ∧
      ∀ more, cut? (moved n u ++ more) = some (.comment false, more) := by
  obtain ⟨line, -⟩ | ⟨-, block, -, inner⟩ := skipComment?_cases comment
  · rw [closed] at line
    cases line
  · obtain ⟨body, rfl⟩ := block_of_startsWith block
    obtain ⟨v, two, same, again, shifts⟩ := blockComment?_local (n := n) inner
    obtain rfl : body = v ++ rest := same
    have long : 4 ≤ ('/' :: '*' :: v).length := by simpa using two
    have moves : moved n ('/' :: '*' :: v) = '/' :: '*' :: moved n v := rfl
    have long' : 4 ≤ ('/' :: '*' :: moved n v).length := by
      have le := length_moved n v
      simp only [length_cons]
      omega
    have taken {u' more : List Char} (long' : 4 ≤ u'.length) (similar : Similar ('/' :: '*' :: v) u')
        (inner : blockComment? 0 ((u' ++ more).drop 2) = some more) : cut? (u' ++ more) = some (.comment false, more) := by
      rw [cut?_comment (skipComment?_between long long' similar comment closed inner),
        (comments_between long long' similar rest more).1, show isLineComment ('/' :: '*' :: v ++ rest) = false from closed]
    refine ⟨'/' :: '*' :: v, by simp, rfl, fun more => taken long (Similar.refl _) (again more), fun more => ?_⟩
    have similar := similar_moved n ('/' :: '*' :: v)
    rw [moves] at similar ⊢
    exact taken long' similar (shifts more)

def docBlock? (inner : Bool) (cs : List Char) : Option (Bool × List Char) :=
  (blockComment? 0 (cs.drop 2)).bind fun rest =>
    if hasBareReturn ((cs.take (cs.length - rest.length)).drop 3) then none else some (inner, rest)

theorem docComment?_block (closed : startsWith "//" cs = false) : docComment? cs =
    if startsWith "/*!" cs then docBlock? true cs
    else if startsWith "/**" cs && !startsWith "/***" cs then docBlock? false cs else none := by
  rw [docComment?, startsWith_longer closed "//!" (by decide), startsWith_longer closed "///" (by decide)]
  rfl

theorem docBlock?_local {sort : Bool} (block : startsWith "/*" cs = true) (found : docBlock? sort cs = some (inner, rest)) :
    blockComment? 0 (cs.drop 2) = some rest ∧
      ∃ u, 4 ≤ u.length ∧ cs = u ++ rest ∧ ∀ more, docBlock? sort (u ++ more) = some (inner, more) := by
  obtain ⟨behind, read, found⟩ := bind_eq_some_iff.mp found
  obtain ⟨whole, found⟩ := ite_none_left_eq_some.mp found
  obtain ⟨rfl, rfl⟩ := mk.inj (some.inj found)
  obtain ⟨body, rfl⟩ := block_of_startsWith block
  obtain ⟨v, two, same, again, -⟩ := blockComment?_local (n := 0) read
  obtain rfl : body = v ++ behind := same
  refine ⟨read, '/' :: '*' :: v, by simpa using two, rfl, fun more => ?_⟩
  rw [← cons_append, ← cons_append, take_length_append] at whole
  rw [docBlock?, show ('/' :: '*' :: v ++ more).drop 2 = v ++ more from rfl, again, bind_some, take_length_append,
    if_neg whole]

theorem skipComment?_eq_none (none : skipComment? cs = none) (read : blockComment? 0 (cs.drop 2) = some rest) :
    isLineComment cs = false ∧ startsWith "/**/" cs = false ∧ isBlockComment cs = false := by
  rw [skipComment?] at none
  split at none
  · cases none
  · rename_i line
    split at none
    · cases none
    · rename_i short
      rw [read, ite_eq_right_iff] at none
      refine ⟨by simpa using line, by simpa using short, ?_⟩
      rw [Bool.eq_false_iff]
      intro block
      cases none block

theorem cut?_docBlock (ordinary : skipComment? cs = none) (doc : docComment? cs = some (inner, rest))
    (closed : startsWith "//" cs = false) :
    ∃ u, u ≠ [] ∧ cs = u ++ rest ∧ ∀ more, cut? (u ++ more) = some (.doc false u, more) := by
  have block : startsWith "/*" cs = true := by
    by_contra other
    rw [(no_comment closed (by simpa using other)).2] at doc
    cases doc
  -- which of the two kinds it is depends on its first characters only
  obtain ⟨sort, found, kind⟩ : ∃ sort, docBlock? sort cs = some (inner, rest) ∧
      ∀ other : List Char, startsWith "//" other = false → startsWith "/*!" other = startsWith "/*!" cs →
        startsWith "/**" other = startsWith "/**" cs → startsWith "/***" other = startsWith "/***" cs →
        docComment? other = docBlock? sort other := by
    rw [docComment?_block closed] at doc
    split at doc
    · rename_i mark
      exact ⟨true, doc, fun other line one _ _ => by rw [docComment?_block line, one, if_pos mark]⟩
    · rename_i mark
      obtain ⟨outer, doc⟩ := ite_none_right_eq_some.mp doc
      exact ⟨false, doc, fun other line one two three => by
        rw [docComment?_block line, one, two, three, if_neg mark, if_pos outer]⟩
  obtain ⟨read, u, long, rfl, again⟩ := docBlock?_local block found
  have full : u ≠ [] := ne_nil_of_length_pos (by omega)
  refine ⟨u, full, rfl, fun more => ?_⟩
  have same {text : String} (short : text.length ≤ 4) (other : text.toList.all (!stops.contains ·) = true) :
      startsWith text (u ++ more) = startsWith text (u ++ rest) :=
    startsWith_between short other long long (Similar.refl u) rest more
  have closed' : startsWith "//" (u ++ more) = false := by rw [same (by decide) (by decide), closed]
  have doc : docComment? (u ++ more) = some (inner, more) := by
    rw [kind _ closed' (same (by decide) (by decide)) (same (by decide) (by decide)) (same (by decide) (by decide)), again]
  obtain ⟨line, empty, plain⟩ := skipComment?_eq_none ordinary read
  have ordinary : skipComment? (u ++ more) = none := by
    rw [skipComment?, (comments_between long long (Similar.refl u) rest more).1, line, same (by decide) (by decide), empty,
      (comments_between long long (Similar.refl u) rest more).2, plain]
    rfl
  rw [cut?_doc ordinary doc, closed', take_length_append]

theorem cut?_local (found : cut? cs = some (cut, rest)) (closed : cut.isLine = false) :
    ∃ u, u ≠ [] ∧ cs = u ++ rest ∧ ∀ more, Similar rest more → cut? (u ++ more) = some (cut, more) := by
  obtain ⟨c, rfl, gap, rfl⟩ | ⟨comment, rfl⟩ | ⟨none, ⟨_, doc⟩, rfl⟩ | ⟨c, rfl, bracket, rfl⟩ | ⟨solid, ⟨token, leaf⟩, rfl⟩ :=
    cut?_cases found
  · exact ⟨[c], by simp, rfl, fun more _ => cut?_gap gap more⟩
  · obtain ⟨u, full, same, again, -⟩ := cut?_block 0 comment closed
    exact ⟨u, full, same, fun more _ => by rw [again, show isLineComment cs = false from closed]⟩
  · have closed : startsWith "//" cs = false := closed
    obtain ⟨u, full, rfl, again⟩ := cut?_docBlock none doc closed
    exact ⟨u, full, rfl, fun more _ => by rw [again, closed, take_length_append]⟩
  · exact ⟨[c], by simp, rfl, fun more _ => cut?_bracket bracket more⟩
  · obtain ⟨u, full, rfl, again⟩ := leaf?_local leaf
    refine ⟨u, full, rfl, fun more similar => ?_⟩
    obtain ⟨_, leaf⟩ := again more similar
    have first : ∀ c ∈ (u ++ more).head?, isGap c = false ∧ isBracket c = false := by
      rw [head?_append_of_ne_nil _ full] at solid ⊢
      exact solid
    rw [cut?_leaf first leaf, take_length_append, take_length_append, spell_similar u similar]

def docLine? (inner : Bool) (cs : List Char) : Option (Bool × List Char) :=
  let rest := (cs.drop 3).dropWhile (· ≠ '\n')
  if hasBareReturn ((cs.drop 3).takeWhile (· ≠ '\n') ++ rest.take 1) then none else some (inner, rest)

theorem not_block (line : startsWith "//" cs = true) : startsWith "/*" cs = false := by
  obtain ⟨_, rfl⟩ := isPrefixOf_iff_prefix.mp line
  simp [startsWith, isPrefixOf]

theorem docComment?_line (line : startsWith "//" cs = true) : docComment? cs =
    if startsWith "//!" cs then docLine? true cs
    else if startsWith "///" cs && !startsWith "////" cs then docLine? false cs else none := by
  have block := not_block line
  rw [docComment?, startsWith_longer block "/*!" (by decide), startsWith_longer block "/**" (by decide)]
  rfl

theorem skipComment?_line (line : startsWith "//" cs = true) :
    skipComment? cs = if isLineComment cs then some (cs.dropWhile (· ≠ '\n')) else none := by
  have block := not_block line
  rw [skipComment?, startsWith_longer block "/**/" (by decide), isBlockComment, block]
  rfl

theorem line_split (cs : List Char) : ∃ u rest, cs = u ++ rest ∧ '\n' ∉ u ∧ (∀ c ∈ rest.head?, c = '\n') ∧
    cs.takeWhile (· ≠ '\n') = u ∧ cs.dropWhile (· ≠ '\n') = rest := by
  refine ⟨_, _, takeWhile_append_dropWhile.symm, fun feed => ?_, fun c head => ?_, rfl, rfl⟩
  · simpa using all_eq_true.mp all_takeWhile _ feed
  · have first := head?_dropWhile_not (fun c => decide (c ≠ '\n')) cs
    rw [mem_def.mp head] at first
    simpa using first

theorem line_append {u rest : List Char} (line : '\n' ∉ u) (ends : ∀ c ∈ rest.head?, c = '\n') :
    (u ++ rest).takeWhile (· ≠ '\n') = u ∧ (u ++ rest).dropWhile (· ≠ '\n') = rest := by
  have all : ∀ c ∈ u, decide (c ≠ '\n') = true := fun c mem => by simpa using fun same : c = '\n' => line (same ▸ mem)
  have none : rest.takeWhile (· ≠ '\n') = [] ∧ rest.dropWhile (· ≠ '\n') = rest := by
    cases rest with
    | nil => exact ⟨rfl, rfl⟩
    | cons c => simp [ends c rfl]
  rw [takeWhile_append_of_pos all, dropWhile_append_of_pos all, none.1, none.2, append_nil]
  exact ⟨rfl, rfl⟩

theorem cut?_line (found : cut? cs = some (cut, rest)) (line : cut.isLine = true) :
    ∃ u, u ≠ [] ∧ cs = u ++ rest ∧ '\n' ∉ u ∧ (∀ c ∈ rest.head?, c = '\n') ∧
      ∀ more, more.head? = rest.head? → cut? (u ++ more) = some (cut, more) := by
  obtain ⟨u, ending, rfl, single, ends, -, _⟩ := line_split cs
  have similar (more : List Char) (stop : ∀ c ∈ more.head?, c = '\n') : Similar (u ++ ending) (u ++ more) := by
    have stopped {rest : List Char} (stop : ∀ c ∈ rest.head?, c = '\n') : Stopped rest := fun c head => by
      rw [stop c head]
      decide
    exact Similar.append_left ⟨[], ending, more, rfl, rfl, stopped ends, stopped stop⟩ u
  have marks {text : String} (other : text.toList.all (!stops.contains ·) = true) (more : List Char)
      (stop : ∀ c ∈ more.head?, c = '\n') : startsWith text (u ++ more) = startsWith text (u ++ ending) :=
    (startsWith_similar other (similar more stop)).symm
  have lines (more : List Char) (stop : ∀ c ∈ more.head?, c = '\n') : isLineComment (u ++ more) = isLineComment (u ++ ending) := by
    rw [isLineComment, isLineComment, marks (by decide) more stop, marks (by decide) more stop, marks (by decide) more stop,
      marks (by decide) more stop]
  have within {text : String} (other : text.toList.all (!stops.contains ·) = true) (begins : startsWith text (u ++ ending) = true) :
      text.toList <+: u := by
    rw [← marks other [] nofun, append_nil] at begins
    exact isPrefixOf_iff_prefix.mp begins
  obtain ⟨c, -, -, rfl⟩ | ⟨comment, rfl⟩ | ⟨ordinary, ⟨inner, doc⟩, rfl⟩ | ⟨c, -, -, rfl⟩ | ⟨-, -, rfl⟩ := cut?_cases found
  · cases line
  · have line : isLineComment (u ++ ending) = true := line
    have begins : startsWith "//" (u ++ ending) = true := by
      simp only [isLineComment, Bool.and_eq_true] at line
      exact line.1.1
    have full : u ≠ [] := by
      obtain ⟨_, rfl⟩ := within (by decide) begins
      exact cons_ne_nil _ _
    have taken (more : List Char) (stop : ∀ c ∈ more.head?, c = '\n') : skipComment? (u ++ more) = some more := by
      rw [skipComment?_line (by rw [marks (by decide) more stop, begins]), lines more stop, line, if_pos rfl,
        (line_append single stop).2]
    obtain rfl : ending = rest := some.inj ((taken ending ends).symm.trans comment)
    refine ⟨u, full, rfl, single, ends, fun more same => ?_⟩
    have stop : ∀ c ∈ more.head?, c = '\n' := same ▸ ends
    rw [cut?_comment (taken more stop), lines more stop]
  · have begins : startsWith "//" (u ++ ending) = true := line
    have ordinary (more : List Char) (stop : ∀ c ∈ more.head?, c = '\n') : skipComment? (u ++ more) = none := by
      have plain : isLineComment (u ++ ending) = false := by
        rw [skipComment?_line begins] at ordinary
        simpa using ordinary
      rw [skipComment?_line (by rw [marks (by decide) more stop, begins]), lines more stop, plain]
      rfl
    rw [docComment?_line begins] at doc
    -- which of the two kinds it is depends on its first characters only
    obtain ⟨sort, mark, found, kind⟩ : ∃ sort, 3 ≤ u.length ∧ docLine? sort (u ++ ending) = some (inner, rest) ∧
        ∀ more, (∀ c ∈ more.head?, c = '\n') → docComment? (u ++ more) = docLine? sort (u ++ more) := by
      split at doc
      · rename_i one
        refine ⟨true, (within (by decide) one).length_le, doc, fun more stop => ?_⟩
        rw [docComment?_line (by rw [marks (by decide) more stop, begins]), marks (by decide) more stop, if_pos one]
      · rename_i one
        obtain ⟨two, doc⟩ := ite_none_right_eq_some.mp doc
        have three := (Bool.and_eq_true _ _ ▸ two : _ ∧ _).1
        refine ⟨false, (within (by decide) three).length_le, doc, fun more stop => ?_⟩
        rw [docComment?_line (by rw [marks (by decide) more stop, begins]), marks (by decide) more stop, if_neg one,
          marks (by decide) more stop, marks (by decide) more stop, if_pos two]
    have within (more : List Char) (stop : ∀ c ∈ more.head?, c = '\n') : docLine? sort (u ++ more) =
        if hasBareReturn (u.drop 3 ++ more.take 1) then none else some (sort, more) := by
      obtain ⟨line, behind⟩ := line_append (fun mem => single (mem_of_mem_drop mem) : '\n' ∉ u.drop 3) stop
      rw [docLine?, drop_append_of_le more mark, line, behind]
    rw [within ending ends] at found
    obtain ⟨whole, found⟩ := ite_none_left_eq_some.mp found
    obtain ⟨rfl, rfl⟩ := mk.inj (some.inj found)
    refine ⟨u, ne_nil_of_length_pos (by omega), rfl, single, ends, fun more same => ?_⟩
    have stop : ∀ c ∈ more.head?, c = '\n' := same ▸ ends
    have again : docComment? (u ++ more) = some (sort, more) := by
      rw [kind more stop, within more stop, take_one, same, ← take_one, if_neg whole]
    rw [cut?_doc (ordinary more stop) again, marks (by decide) more stop, take_length_append, take_length_append]
  · cases line
  · cases line

end Cutting
end Lexer
end LiveMarkup.Expression
