import LiveMarkup.Proofs.Expansion

/-!
Where the declarations of a compiled file are put. In front of the items of a file stand blanks, comments and inner attributes;
declarations may begin behind the last of these that has to come first. The place is found line by line, so it is the right one
exactly when up to there every line is blank or begins with what has to come first, and nothing else ends the last of them.
-/

namespace LiveMarkup.Codegen.Module
open Text Markup.Style Nat
open List hiding splitAt

/-- A piece of what stands in front of the items of a file. -/
structure LeadPiece where
  text : List Char
  /-- Whether it is an inner doc comment or an inner attribute, which come before all items. -/
  inner : Bool

/-- Whether a text begins with a mark that headers are put behind. -/
def isMark (cs : List Char) : Bool := ['/', '/', '!'].isPrefixOf cs || ['#', '!', '['].isPrefixOf cs

def leadText (pieces : List LeadPiece) : List Char := pieces.flatMap LeadPiece.text

/-- Blanks, comments and inner attributes that stand in front of items. An attribute may have blanks between its parts and go
over several lines. -/
inductive Leads : List LeadPiece → List Char → Prop
  | items {items : List Char} (solid : ∀ c ∈ items.head?, isBlank c = false) (apart : isMark items = false) : Leads [] items
  | blank {c : Char} {pieces : List LeadPiece} {items : List Char} (white : isBlank c = true) (rest : Leads pieces items) :
      Leads (⟨[c], false⟩ :: pieces) items
  | lineComment {content : List Char} {pieces : List LeadPiece} {items : List Char} (line : '\n' ∉ content)
      (ends : ∀ c ∈ (leadText pieces ++ items).head?, c = '\n') (rest : Leads pieces items) :
      Leads (⟨'/' :: '/' :: content, content.head? == some '!'⟩ :: pieces) items
  | blockComment {content : List Char} {pieces : List LeadPiece} {items : List Char} (rest : Leads pieces items) :
      Leads (⟨['/', '*'] ++ content ++ ['*', '/'], content.head? == some '!'⟩ :: pieces) items
  | innerAttribute {gap more content : List Char} {pieces : List LeadPiece} {items : List Char}
      (white : ∀ c ∈ gap ++ more, isBlank c = true) (rest : Leads pieces items) :
      Leads (⟨['#'] ++ gap ++ ['!'] ++ more ++ ['['] ++ content ++ [']'], true⟩ :: pieces) items

/-- A header behind `front` stands between the pieces, behind all that has to come first. -/
def StandsBehind (pieces : List LeadPiece) (front : List Char) : Prop :=
  ∃ before after, pieces = before ++ after ∧ leadText before = front ∧ ∀ piece ∈ after, piece.inner = false

/-- A line that a search for the place of a header goes on from. -/
def IsPassed (line : List Char) : Prop := (∀ c ∈ line, isBlank c = true) ∨ isMark (trim line) = true

/-- Up to the last of the pieces that have to come first, each line is blank or begins with a mark, and the last is complete. -/
def IsOrderly (pieces : List LeadPiece) (items : List Char) : Prop :=
  ∃ before after, pieces = before ++ after ∧ (∀ piece ∈ after, piece.inner = false) ∧
    (∀ c ∈ (leadText after ++ items).head?, c = '\n') ∧ ∀ line ∈ splitAt '\n' (leadText before), IsPassed line

section Lines

variable {cs : List Char}

theorem lines_induction {motive : List Char → Prop} (last : ∀ line, '\n' ∉ line → motive line)
    (more : ∀ line rest, '\n' ∉ line → motive rest → motive (line ++ '\n' :: rest)) (cs : List Char) : motive cs := by
  induction n : cs.length using Nat.strongRecOn generalizing cs with
  | ind n ih =>
    by_cases mem : '\n' ∈ cs
    · obtain ⟨line, rest, rfl, first⟩ := eq_append_cons_of_mem mem
      refine more line rest first (ih rest.length ?_ rest rfl)
      rw [← n, length_append, length_cons]
      omega
    · exact last cs mem

theorem splitAt_line {line : List Char} (absent : '\n' ∉ line) : splitAt '\n' line = [line] := by
  induction line with
  | nil => rfl
  | cons _ _ ih =>
    rw [splitAt, if_neg (ne_of_not_mem_cons absent).symm, ih (not_mem_of_not_mem_cons absent)]

theorem splitAt_append_line (cs rest : List Char) : splitAt '\n' (cs ++ '\n' :: rest) = splitAt '\n' cs ++ splitAt '\n' rest := by
  induction cs using lines_induction with
  | last _ absent => rw [splitAt_append absent, splitAt_line absent, singleton_append]
  | more _ _ absent ih =>
    rw [append_assoc, cons_append, splitAt_append absent, ih, splitAt_append absent, cons_append]

theorem isPrefixOf_trimEnd {mark : List Char} (solid : ∀ c ∈ mark, isBlank c = false) (cs : List Char) :
    mark.isPrefixOf (trimEnd cs) = mark.isPrefixOf cs := by
  induction mark generalizing cs with
  | nil => simp
  | cons m _ ih =>
    cases cs with
    | nil => rfl
    | cons c cs =>
      cases white : isBlank c with
      | false => rw [trimEnd_cons white, isPrefixOf, isPrefixOf, ih (fun c mem => solid c (by simp [mem]))]
      | true =>
        have other : m ≠ c := fun same => Bool.false_ne_true ((solid m (by simp)).symm.trans (same ▸ white))
        have front : trimEnd (c :: cs) <+: c :: cs := by
          simpa [trimEnd] using reverse_prefix.mpr (dropWhile_suffix (l := (c :: cs).reverse) isBlank)
        rw [Bool.eq_iff_iff, isPrefixOf_iff_prefix, isPrefixOf_iff_prefix]
        exact ⟨(·.trans front), fun start => absurd (cons_prefix_cons.mp start).1 other⟩

theorem isMark_append (mark : isMark cs = true) (rest : List Char) : isMark (cs ++ rest) = true := by
  simp only [isMark, Bool.or_eq_true, isPrefixOf_iff_prefix] at mark ⊢
  exact mark.imp (·.trans (prefix_append _ _)) (·.trans (prefix_append _ _))

theorem isMark_trim (cs : List Char) : isMark (trim cs) = isMark (cs.dropWhile isBlank) := by
  have doc : ∀ c ∈ ['/', '/', '!'], isBlank c = false := by simp [isBlank]
  have bracket : ∀ c ∈ ['#', '!', '['], isBlank c = false := by simp [isBlank]
  rw [isMark, trim, isPrefixOf_trimEnd doc, isPrefixOf_trimEnd bracket]
  rfl

theorem trim_eq_nil (white : ∀ c ∈ cs, isBlank c = true) : trim cs = [] := by
  rw [trim, trimStart, dropWhile_eq_nil_iff.mpr white]
  rfl

theorem white_of_trim_eq_nil (none : trim cs = []) : ∀ c ∈ cs, isBlank c = true := by
  by_contra some
  cases front : cs.dropWhile isBlank with
  | nil => exact some (dropWhile_eq_nil_iff.mp front)
  | cons =>
    have solid := Markup.Piece.trimStart_cons_not_blank front
    rw [trim, trimStart, front, trimEnd_cons solid] at none
    cases none

theorem headerLength_cons (here offset : Nat) (line : List Char) (rest : List (List Char)) :
    headerLength here offset (line :: rest) =
      if isMark (trim line) then headerLength (here + line.length + 1) (here + line.length + 1) rest
      else if trim line = [] then headerLength (here + line.length + 1) offset rest
      else offset := by
  rw [headerLength, show "//!".toList = ['/', '/', '!'] from rfl, show "#![".toList = ['#', '!', '['] from rfl]
  simp [isMark]

theorem headerLength_passed (here offset : Nat) (cs : List Char) (more : List (List Char))
    (passed : ∀ line ∈ splitAt '\n' cs, IsPassed line) :
    ∃ reached, headerLength here offset (splitAt '\n' cs ++ more) = headerLength (here + cs.length + 1) reached more ∧
      (reached = offset ∧ (∀ c ∈ cs, isBlank c = true) ∨
        ∃ front blanks, cs ++ ['\n'] = front ++ '\n' :: blanks ∧ (∀ c ∈ blanks, isBlank c = true) ∧
          reached = here + front.length + 1) := by
  have newline : isBlank '\n' = true := by decide
  induction cs using lines_induction generalizing here offset with
  | last line absent =>
    rw [splitAt_line absent] at passed ⊢
    rw [singleton_append, headerLength_cons]
    by_cases mark : isMark (trim line) = true
    · exact ⟨_, if_pos mark, .inr ⟨line, [], rfl, by simp, rfl⟩⟩
    · have white := (passed line (by simp)).resolve_right mark
      rw [if_neg mark, if_pos (trim_eq_nil white)]
      exact ⟨offset, rfl, .inl ⟨rfl, white⟩⟩
  | more line cs absent ih =>
    rw [splitAt_append absent] at passed ⊢
    have later : ∀ line ∈ splitAt '\n' cs, IsPassed line := fun other mem => passed other (mem_cons_of_mem line mem)
    have size : here + (line ++ '\n' :: cs).length + 1 = here + line.length + 1 + cs.length + 1 := by
      rw [length_append, length_cons]
      omega
    have behind {front blanks : List Char} (whole : cs ++ ['\n'] = front ++ '\n' :: blanks) :
        line ++ '\n' :: cs ++ ['\n'] = (line ++ '\n' :: front) ++ '\n' :: blanks ∧
          here + line.length + 1 + front.length + 1 = here + (line ++ '\n' :: front).length + 1 := by
      refine ⟨by simp [whole], ?_⟩
      rw [length_append, length_cons]
      omega
    rw [cons_append, headerLength_cons, size]
    by_cases mark : isMark (trim line) = true
    · rw [if_pos mark]
      obtain ⟨_, same, ⟨rfl, white⟩ | ⟨_, blanks, whole, white, rfl⟩⟩ := ih (here + line.length + 1) (here + line.length + 1) later
      · exact ⟨_, same, .inr ⟨line, cs ++ ['\n'], by simp, by simpa [or_imp, forall_and, newline] using white, rfl⟩⟩
      · exact ⟨_, same, .inr ⟨_, blanks, (behind whole).1, white, (behind whole).2⟩⟩
    · have white := (passed line (by simp)).resolve_right mark
      rw [if_neg mark, if_pos (trim_eq_nil white)]
      obtain ⟨_, same, ⟨rfl, others⟩ | ⟨_, blanks, whole, others, rfl⟩⟩ := ih (here + line.length + 1) offset later
      · refine ⟨_, same, .inl ⟨rfl, ?_⟩⟩
        simpa [or_imp, forall_and, newline] using ⟨white, others⟩
      · exact ⟨_, same, .inr ⟨_, blanks, (behind whole).1, others, (behind whole).2⟩⟩

theorem headerLength_unmarked (here offset : Nat) (cs : List Char) (unmarked : isMark (cs.dropWhile isBlank) = false) :
    headerLength here offset (splitAt '\n' cs) = offset := by
  induction cs using lines_induction generalizing here with
  | last _ absent =>
    rw [splitAt_line absent, headerLength_cons, isMark_trim, unmarked, if_neg Bool.false_ne_true, headerLength, ite_self]
  | more line cs absent ih =>
    rw [splitAt_append absent, headerLength_cons, isMark_trim]
    by_cases white : ∀ c ∈ line, isBlank c = true
    · have skipped : (line ++ '\n' :: cs).dropWhile isBlank = cs.dropWhile isBlank := by
        rw [dropWhile_append_of_pos white, dropWhile_cons_of_pos (by decide)]
      rw [dropWhile_eq_nil_iff.mpr white, if_neg (by decide), if_pos (trim_eq_nil white)]
      exact ih _ (skipped ▸ unmarked)
    · have solid : line.dropWhile isBlank ≠ [] := fun none => white (dropWhile_eq_nil_iff.mp none)
      rw [dropWhile_append, if_neg (by simpa using white)] at unmarked
      have bare : isMark (line.dropWhile isBlank) ≠ true := fun mark => Bool.false_ne_true (unmarked.symm.trans (isMark_append mark _))
      rw [if_neg bare, if_neg fun none => white (white_of_trim_eq_nil none)]

theorem headerLength_cases (here offset : Nat) (cs : List Char) : headerLength here offset (splitAt '\n' cs) = offset ∨
    ∃ front, headerLength here offset (splitAt '\n' cs) = here + front.length + 1 ∧
      (∀ line ∈ splitAt '\n' front, IsPassed line) ∧ (cs = front ∨ ∃ rest, cs = front ++ '\n' :: rest) := by
  induction cs using lines_induction generalizing here offset with
  | last line absent =>
    rw [splitAt_line absent, headerLength_cons]
    by_cases mark : isMark (trim line) = true
    · rw [if_pos mark]
      refine .inr ⟨line, rfl, ?_, .inl rfl⟩
      rw [splitAt_line absent]
      simpa using .inr mark
    · rw [if_neg mark, headerLength, ite_self]
      exact .inl rfl
  | more line cs absent ih =>
    rw [splitAt_append absent, headerLength_cons]
    -- Where the search goes on, it has passed this line and what it passes behind it.
    have onward {reached : Nat} (passed : IsPassed line) (found : ∃ front, reached = here + line.length + 1 + front.length + 1 ∧
        (∀ line ∈ splitAt '\n' front, IsPassed line) ∧ (cs = front ∨ ∃ rest, cs = front ++ '\n' :: rest)) :
        ∃ front, reached = here + front.length + 1 ∧ (∀ line ∈ splitAt '\n' front, IsPassed line) ∧
          (line ++ '\n' :: cs = front ∨ ∃ rest, line ++ '\n' :: cs = front ++ '\n' :: rest) := by
      obtain ⟨front, rfl, all, split⟩ := found
      refine ⟨line ++ '\n' :: front, by rw [length_append, length_cons]; omega, ?_, ?_⟩
      · rw [splitAt_append absent]
        simpa using ⟨passed, all⟩
      · rcases split with rfl | ⟨rest, rfl⟩
        · exact .inl rfl
        · exact .inr ⟨rest, by simp⟩
    by_cases mark : isMark (trim line) = true
    · rw [if_pos mark]
      rcases ih (here + line.length + 1) (here + line.length + 1) with same | found
      · refine .inr ⟨line, same, ?_, .inr ⟨cs, rfl⟩⟩
        rw [splitAt_line absent]
        simpa using .inr mark
      · exact .inr (onward (.inr mark) found)
    · rw [if_neg mark]
      by_cases none : trim line = []
      · rw [if_pos none]
        exact (ih (here + line.length + 1) offset).imp id (onward (.inl (white_of_trim_eq_nil none)))
      · exact .inl (if_neg none)

end Lines

section Pieces

variable {pieces before after : List LeadPiece} {items front : List Char} {piece : LeadPiece}

@[simp]
theorem leadText_cons (piece : LeadPiece) (pieces : List LeadPiece) : leadText (piece :: pieces) = piece.text ++ leadText pieces := rfl

@[simp]
theorem leadText_append (before after : List LeadPiece) : leadText (before ++ after) = leadText before ++ leadText after :=
  flatMap_append

/-- A piece that is no blank begins with another character, and ends with one if it goes over several lines. -/
def LeadPiece.IsSolid (piece : LeadPiece) : Prop :=
  (∃ c rest, piece.text = c :: rest ∧ isBlank c = false) ∧ ('\n' ∈ piece.text → ∃ d ∈ piece.text.getLast?, isBlank d = false)

def LeadPiece.IsFormed (piece : LeadPiece) : Prop := (∃ c, isBlank c = true ∧ piece = ⟨[c], false⟩) ∨ piece.IsSolid

theorem Leads.formed (leads : Leads pieces items) : ∀ piece ∈ pieces, piece.IsFormed := by
  have slash : isBlank '/' = false := by decide
  have bracket : isBlank ']' = false := by decide
  induction leads with
  | items => simp
  | blank white _ ih => exact forall_mem_cons.mpr ⟨.inl ⟨_, white, rfl⟩, ih⟩
  | lineComment line _ _ ih =>
    exact forall_mem_cons.mpr ⟨.inr ⟨⟨_, _, rfl, slash⟩, fun mem => absurd mem (by simp [line])⟩, ih⟩
  | blockComment _ ih => exact forall_mem_cons.mpr ⟨.inr ⟨⟨_, _, rfl, slash⟩, fun _ => ⟨'/', (getLast?_append_of_ne_nil _ (cons_ne_nil _ _)).trans rfl, slash⟩⟩, ih⟩
  | innerAttribute _ _ ih =>
    exact forall_mem_cons.mpr ⟨.inr ⟨⟨_, _, rfl, by decide⟩, fun _ => ⟨']', (getLast?_append_of_ne_nil _ (cons_ne_nil _ _)).trans rfl, bracket⟩⟩, ih⟩

theorem LeadPiece.IsFormed.text_ne_nil (formed : piece.IsFormed) : piece.text ≠ [] := by
  rcases formed with ⟨c, _, rfl⟩ | ⟨⟨c, rest, text, _⟩, _⟩
  · exact cons_ne_nil _ _
  · simp [text]

theorem LeadPiece.IsFormed.not_inner (formed : piece.IsFormed) (white : ∀ c ∈ piece.text, isBlank c = true) :
    piece.inner = false := by
  rcases formed with ⟨c, _, rfl⟩ | ⟨⟨c, rest, text, solid⟩, _⟩
  · rfl
  · exact absurd (white c (by simp [text])) (by simp [solid])

theorem Leads.of_append (leads : Leads (before ++ after) items) : Leads after items := by
  induction before with
  | nil => exact leads
  | cons _ _ ih => cases leads <;> exact ih ‹_›

theorem Leads.unmarked (leads : Leads pieces items) (ordinary : ∀ piece ∈ pieces, piece.inner = false) :
    isMark ((leadText pieces ++ items).dropWhile isBlank) = false := by
  induction leads with
  | @items items solid apart =>
    cases items with
    | nil => rfl
    | cons c items =>
      show isMark ((c :: items).dropWhile isBlank) = false
      rw [dropWhile_cons_of_neg (by simpa using solid)]
      exact apart
  | @blank c pieces items white _ ih =>
    show isMark ((c :: (leadText pieces ++ items)).dropWhile isBlank) = false
    rw [dropWhile_cons_of_pos white]
    exact ih fun piece mem => ordinary piece (mem_cons_of_mem _ mem)
  | @lineComment content pieces items _ ends =>
    have none : (content.head? == some '!') = false := ordinary _ mem_cons_self
    rw [leadText_cons, append_assoc, cons_append, dropWhile_cons_of_neg (by decide)]
    cases content with
    | cons c =>
      have other : c ≠ '!' := by simpa using none
      simp [isMark, isPrefixOf, other.symm]
    | nil =>
      cases following : leadText pieces ++ items with
      | nil => rfl
      | cons c =>
        obtain rfl := ends c (by simp [following])
        simp [isMark, isPrefixOf]
  | @blockComment content pieces items =>
    show isMark (('/' :: '*' :: (content ++ ['*', '/'] ++ leadText pieces ++ items)).dropWhile isBlank) = false
    rw [dropWhile_cons_of_neg (by decide)]
    rfl
  | innerAttribute => exact absurd (ordinary _ mem_cons_self) (by simp)

theorem exists_cut (formed : ∀ piece ∈ pieces, piece.IsFormed) {blanks : List Char} (cut : leadText pieces = front ++ blanks)
    (white : ∀ c ∈ blanks, isBlank c = true) (behind : blanks = [] ∨ front = [] ∨ front.getLast? = some '\n') :
    ∃ before after, pieces = before ++ after ∧ leadText before = front ∧ ∀ piece ∈ after, piece.inner = false := by
  induction pieces generalizing front with
  | nil =>
    obtain ⟨rfl, rfl⟩ := append_eq_nil_iff.mp cut.symm
    exact ⟨[], [], rfl, rfl, by simp⟩
  | cons piece pieces ih =>
    obtain ⟨here, later⟩ := forall_mem_cons.mp formed
    have ordinary (mem : ∀ c ∈ leadText pieces, isBlank c = true) : ∀ piece ∈ pieces, piece.inner = false := fun piece among =>
      (later piece among).not_inner fun c member => mem c (mem_flatMap.mpr ⟨piece, among, member⟩)
    rw [leadText_cons] at cut
    rcases append_eq_append_iff.mp cut with ⟨between, rfl, rest⟩ | ⟨between, text, rfl⟩
    · have further : blanks = [] ∨ between = [] ∨ between.getLast? = some '\n' := by
        by_cases none : between = []
        · exact .inr (.inl none)
        · refine behind.imp id fun front => .inr ?_
          rw [getLast?_append_of_ne_nil _ none] at front
          exact front.resolve_left (by simp [none])
      obtain ⟨before, after, rfl, same, ordinary⟩ := ih later rest further
      exact ⟨piece :: before, after, rfl, by rw [leadText_cons, same], ordinary⟩
    · obtain ⟨mem, others⟩ := forall_mem_append.mp white
      by_cases whole : between = []
      · subst whole
        exact ⟨[piece], pieces, rfl, by simpa [leadText] using text, ordinary others⟩
      by_cases none : front = []
      · subst none
        refine ⟨[], piece :: pieces, rfl, rfl, forall_mem_cons.mpr ⟨here.not_inner ?_, ordinary others⟩⟩
        rwa [text]
      -- Otherwise a piece goes on behind a line break with blanks alone.
      · have newline := (behind.resolve_left (by simp [whole])).resolve_left none
        exfalso
        rcases here with ⟨c, _, rfl⟩ | ⟨_, ends⟩
        · have sizes := congrArg length text
          have := length_pos_iff.mpr whole
          have := length_pos_iff.mpr none
          simp at sizes
          omega
        · obtain ⟨d, last, solid⟩ := ends (text ▸ mem_append_left _ (mem_of_getLast? newline))
          rw [text, getLast?_append_of_ne_nil _ whole] at last
          simp [mem d (mem_of_getLast? last)] at solid

theorem exists_newline (formed : ∀ piece ∈ pieces, piece.IsFormed) (ends : leadText pieces = front ++ ['\n']) :
    ∃ before, pieces = before ++ [⟨['\n'], false⟩] ∧ leadText before = front := by
  rcases eq_nil_or_concat pieces with rfl | ⟨before, piece, rfl⟩
  · simp [leadText] at ends
  have here : piece.IsFormed := formed piece (by simp)
  rw [concat_eq_append, leadText_append, leadText_cons, show leadText [] = [] from rfl, append_nil] at ends
  have last : piece.text.getLast? = some '\n' := by
    rw [← getLast?_append_of_ne_nil (leadText before) here.text_ne_nil, ends, getLast?_concat]
  rcases here with ⟨c, _, rfl⟩ | ⟨_, solid⟩
  · obtain rfl : c = '\n' := by simpa using last
    exact ⟨before, concat_eq_append, append_cancel_right ends⟩
  · obtain ⟨d, same, solid⟩ := solid (mem_of_getLast? last)
    obtain rfl : '\n' = d := Option.some.inj (last.symm.trans same)
    simp [isBlank] at solid

def headerPlace (body : List Char) : Nat := headerLength 0 0 (splitAt '\n' body)

theorem Leads.newline {rest : List Char} (leads : Leads pieces items) (starts : leadText pieces ++ items = '\n' :: rest) :
    ∃ others, pieces = ⟨['\n'], false⟩ :: others := by
  cases leads with
  | items solid =>
    obtain rfl : items = '\n' :: rest := starts
    exact absurd (solid '\n' rfl) (by decide)
  | blank =>
    obtain ⟨rfl, -⟩ := cons.inj starts
    exact ⟨_, rfl⟩
  | lineComment | blockComment | innerAttribute => simp at starts

theorem exists_inner (some : ∃ piece ∈ before ++ after, piece.inner = true) (ordinary : ∀ piece ∈ after, piece.inner = false) :
    ∃ piece ∈ before, piece.inner = true := by
  obtain ⟨piece, mem, inner⟩ := some
  refine ⟨piece, (mem_append.mp mem).resolve_right fun behind => ?_, inner⟩
  exact Bool.false_ne_true ((ordinary piece behind).symm.trans inner)

theorem take_line (front rest : List Char) : (front ++ '\n' :: rest).take (front.length + 1) = front ++ ['\n'] := by
  rw [take_length_add_append]
  rfl

theorem standsBehind_of_isOrderly (leads : Leads pieces items) (some : ∃ piece ∈ pieces, piece.inner = true)
    (orderly : IsOrderly pieces items) :
    StandsBehind pieces ((leadText pieces ++ items).take (headerPlace (leadText pieces ++ items))) := by
  obtain ⟨before, after, rfl, ordinary, ends, passed⟩ := orderly
  have formed : ∀ piece ∈ before, piece.IsFormed := fun piece mem => leads.formed piece (mem_append_left _ mem)
  have notWhite : ¬ ∀ c ∈ leadText before, isBlank c = true := by
    intro white
    obtain ⟨piece, mem, inner⟩ := exists_inner some ordinary
    have outer := (formed piece mem).not_inner fun c member => white c (mem_flatMap.mpr ⟨piece, mem, member⟩)
    exact Bool.false_ne_true (outer.symm.trans inner)
  have behind := (leads.of_append).unmarked ordinary
  rw [leadText_append, append_assoc]
  cases following : leadText after ++ items with
  | nil =>
    obtain ⟨_, place, ⟨rfl, white⟩ | ⟨front, blanks, whole, white, rfl⟩⟩ := headerLength_passed 0 0 (leadText before) [] passed
    · exact absurd white notWhite
    rw [append_nil] at place ⊢
    rw [headerPlace, place, headerLength, zero_add]
    rcases eq_nil_or_concat blanks with rfl | ⟨blanks, c, rfl⟩
    · obtain rfl : leadText before = front := append_cancel_right whole
      exact ⟨before, after, rfl, (take_of_length_le (le_succ _)).symm, ordinary⟩
    · have cut : front ++ '\n' :: blanks.concat c = (front ++ ['\n'] ++ blanks) ++ [c] := by simp
      have text : leadText before = front ++ ['\n'] ++ blanks := (append_inj' (whole.trans cut) rfl).1
      obtain ⟨first, second, rfl, same, others⟩ := exists_cut formed text (fun d mem => white d (by simp [mem])) (by simp)
      refine ⟨first, second ++ after, append_assoc .., ?_, fun piece mem => ?_⟩
      · rw [same, text, append_assoc, singleton_append, take_line]
      · exact (mem_append.mp mem).elim (others piece) (ordinary piece)
  | cons c rest =>
    obtain rfl := ends c (by simp [following])
    obtain ⟨others, rfl⟩ := leads.of_append.newline following
    rw [following, dropWhile_cons_of_pos (by decide)] at behind
    obtain ⟨_, place, ⟨rfl, white⟩ | ⟨front, blanks, whole, white, rfl⟩⟩ :=
      headerLength_passed 0 0 (leadText before) (splitAt '\n' rest) passed
    · exact absurd white notWhite
    have text : leadText (before ++ [⟨['\n'], false⟩]) = (front ++ ['\n']) ++ blanks := by
      rw [leadText_append, append_assoc]
      exact whole
    have all : ∀ piece ∈ before ++ [⟨['\n'], false⟩], piece.IsFormed := fun piece mem =>
      leads.formed piece (by simp only [mem_append, mem_cons] at mem ⊢; tauto)
    obtain ⟨first, second, split, same, white⟩ := exists_cut all text white (by simp)
    have line : leadText before ++ '\n' :: rest = front ++ '\n' :: (blanks ++ rest) := by
      rw [← singleton_append, ← append_assoc, whole, append_assoc, cons_append]
    refine ⟨first, second ++ others, ?_, ?_, fun piece mem => ?_⟩
    · rw [← append_assoc, ← split, append_assoc]
      rfl
    · rw [same, headerPlace, splitAt_append_line, place, headerLength_unmarked _ _ _ behind, zero_add, line, take_line]
    · exact (mem_append.mp mem).elim (white piece) fun member => ordinary piece (mem_cons_of_mem _ member)

theorem isOrderly_of_standsBehind (leads : Leads pieces items) (some : ∃ piece ∈ pieces, piece.inner = true)
    (stands : StandsBehind pieces ((leadText pieces ++ items).take (headerPlace (leadText pieces ++ items)))) :
    IsOrderly pieces items := by
  obtain ⟨before, after, rfl, same, ordinary⟩ := stands
  have formed : ∀ piece ∈ before, piece.IsFormed := fun piece mem => leads.formed piece (mem_append_left _ mem)
  rw [headerPlace] at same
  rcases headerLength_cases 0 0 (leadText (before ++ after) ++ items) with none | ⟨front, place, passed, whole | ⟨rest, whole⟩⟩
  · obtain ⟨piece, mem, _⟩ := exists_inner some ordinary
    rw [none, take_zero] at same
    exact absurd (flatMap_eq_nil_iff.mp same piece mem) (formed piece mem).text_ne_nil
  · rw [place, zero_add, whole, take_of_length_le (le_succ _)] at same
    have nothing : leadText after ++ items = [] := by
      rw [← same, leadText_append, append_assoc] at whole
      exact append_right_eq_self.mp whole
    exact ⟨before, after, rfl, ordinary, by simp [nothing], same ▸ passed⟩
  · rw [place, zero_add, whole, take_line] at same
    obtain ⟨before, rfl, rfl⟩ := exists_newline formed same
    refine ⟨before, ⟨['\n'], false⟩ :: after, by simp, by simpa using ordinary, ?_, passed⟩
    rintro _ ⟨⟩
    rfl

theorem standsBehind_iff (leads : Leads pieces items) :
    StandsBehind pieces ((leadText pieces ++ items).take (headerPlace (leadText pieces ++ items))) ↔
      (∀ piece ∈ pieces, piece.inner = false) ∨ IsOrderly pieces items := by
  by_cases ordinary : ∀ piece ∈ pieces, piece.inner = false
  · refine iff_of_true ⟨[], pieces, rfl, ?_, ordinary⟩ (.inl ordinary)
    rw [headerPlace, headerLength_unmarked 0 0 _ (leads.unmarked ordinary)]
    rfl
  · have some : ∃ piece ∈ pieces, piece.inner = true := by simpa using ordinary
    rw [or_iff_right ordinary]
    exact ⟨isOrderly_of_standsBehind leads some, standsBehind_of_isOrderly leads some⟩

end Pieces

section Replacing
open Blueprint
open Template (parseBlock bind_eq_ok)

variable {name file body : List Char} {within : Option (Nat × Nat)} {spot start brace : Spot} {context after : Context}

/-- From a spot on each block is replaced by some code, and all other text stays as it is. -/
inductive Replaces (name : List Char) : Spot → List Char → Prop
  | rest {spot : Spot} (none : Site.next name spot = none) : Replaces name spot spot.rest
  | block {spot start brace : Spot} {length : Nat} {blueprint : Blueprint} {code behind : List Char}
      (builds : Builds name spot start brace length blueprint) (rest : Replaces name (brace.skipBytes length) behind) :
      Replaces name spot (spot.textTo start ++ code ++ behind)

theorem length_behind_block {length : Nat} {blueprint : Blueprint} (builds : Builds name spot start brace length blueprint) :
    (brace.skipBytes length).rest.length < spot.rest.length := by
  obtain ⟨_, read, -⟩ := builds.built
  obtain ⟨⟨_, whole⟩, -, _, rfl⟩ := onward_next builds.found
  obtain ⟨_, _, _, count, -⟩ := skip_block read
  rw [skipBytes_skip (by simpa using count []), Spot.rest_skip, length_drop, whole, length_append]
  omega

theorem replaces_expand {fuel count : Nat} (enough : spot.rest.length < fuel)
    (expanded : (expand name file fuel within spot).run context = .ok ((body, count), after)) : Replaces name spot body := by
  induction fuel generalizing spot context body count with
  | zero => cases enough
  | succ _ ih =>
    cases found : Site.next name spot with
    | none =>
      simp only [expand, found] at expanded
      cases expanded
      exact .rest found
    | some site =>
      obtain ⟨start, brace⟩ := site
      obtain ⟨_, runs, -⟩ | ⟨_, _, _, placed, builds⟩ := expand_fails_or_builds file within found
      · cases expanded.symm.trans (runs _ _)
      · rw [expand_built builds placed] at expanded
        obtain ⟨⟨⟨_, _⟩, _⟩, -, expanded⟩ := bind_eq_ok expanded
        obtain ⟨⟨⟨_, _⟩, _⟩, behind, done⟩ := bind_eq_ok expanded
        cases done
        exact .block builds (ih (by have := length_behind_block builds; omega) behind)

theorem Replaces.keeps {lead items : List Char} (replaces : Replaces name spot body) (text : spot.rest = lead ++ items)
    (free : ∀ start brace, Site.next name spot = some (start, brace) → start.rest.length ≤ items.length) :
    ∃ rest, body = lead ++ rest := by
  cases replaces with
  | rest => exact ⟨items, text⟩
  | block builds =>
    have behind := free _ _ builds.found
    rw [Spot.textTo, text, length_append, take_append, take_of_length_le (by omega), append_assoc,
      append_assoc]
    exact ⟨_, rfl⟩

def headerOf (context : Context) : List Char := (context.renderImports ++ context.renderHoisted).toList

theorem insertHeader_eq {header : List Char} (some : header ≠ []) (body : List Char) :
    insertHeader header body = body.take (headerPlace body) ++ header ++
      (if header = [] ∨ (body.drop (headerPlace body)).head? = Option.some '\n' then [] else ['\n']) ++
      body.drop (headerPlace body) := by
  rw [insertHeader, if_neg (by simpa using some), headerPlace]
  simp only [some, false_or]
  split <;> simp

/-- A compiled file is its source with the blocks replaced and a header in it. The header stands behind all inner doc
comments and inner attributes, between the pieces in front of the items, exactly if there are none of these or the lines
up to the last of them are blank or begin with one of them. -/
theorem header_stands_behind_iff {source : String} {options : Options} {result : CompiledModule}
    (ok : compileModule source options = .ok result) : ∃ body templates context front back,
      (expand options.keyword.toList source.toList (source.toList.length + 1) none (.start source.toList)).run (.ofOptions options) =
        .ok ((body, templates), context) ∧
      Replaces options.keyword.toList (.start source.toList) body ∧
      (∀ lead items, source.toList = lead ++ items →
        (∀ start brace, Site.next options.keyword.toList (.start source.toList) = some (start, brace) →
          start.rest.length ≤ items.length) → ∃ rest, body = lead ++ rest) ∧
      body = front ++ back ∧
      result.code.toList = front ++ headerOf context ++
        (if headerOf context = [] ∨ back.head? = some '\n' then [] else ['\n']) ++ back ∧
      ∀ pieces items, Leads pieces items → body = leadText pieces ++ items → headerOf context ≠ [] →
        (StandsBehind pieces front ↔ (∀ piece ∈ pieces, piece.inner = false) ∨ IsOrderly pieces items) := by
  obtain ⟨⟨⟨body, templates⟩, context⟩, expanded, done⟩ := bind_eq_ok ok
  obtain rfl := Except.ok.inj done
  have replaces : Replaces options.keyword.toList (.start source.toList) body :=
    replaces_expand (Nat.lt_succ_self _) expanded
  have kept (lead items : List Char) (text : source.toList = lead ++ items) := replaces.keeps text
  by_cases none : headerOf context = []
  · refine ⟨body, templates, context, [], body, expanded, replaces, kept, rfl, ?_, fun _ _ _ _ some => absurd none some⟩
    show (String.ofList (insertHeader (headerOf context) body)).toList = _
    rw [String.toList_ofList, none]
    rfl
  · refine ⟨body, templates, context, body.take (headerPlace body), body.drop (headerPlace body), expanded, replaces, kept,
      (take_append_drop _ _).symm, ?_, ?_⟩
    · show (String.ofList (insertHeader (headerOf context) body)).toList = _
      rw [String.toList_ofList, insertHeader_eq none]
    · rintro pieces items leads rfl -
      exact standsBehind_iff leads

end Replacing

section Notes
open Blueprint
open Template (parseBlock)

def breakItem : List Char := "fn a()\x7bview!\x7b<br/>\x7d\x7d".toList

def breakItemCode : List Char := "fn a()\x7b__TMPL.with(__clone)\x7d".toList

def breakContext : Context := ((generate breakBlueprint).run (.ofOptions {})).2

set_option maxRecDepth 10000

theorem generate_break : ((generate breakBlueprint).run (.ofOptions {})).1 = "__TMPL.with(__clone)" := by cbv

theorem next_generated_break : Site.next ['v', 'i', 'e', 'w'] (.start "__TMPL.with(__clone)".toList) = none := by cbv

theorem expand_breakItem {lead : List Char} {start brace : Spot} (n : Nat)
    (found : Site.next ['v', 'i', 'e', 'w'] (.start (lead ++ breakItem)) = some (start, brace))
    (front : (Spot.start (lead ++ breakItem)).textTo start = lead ++ ['f', 'n', ' ', 'a', '(', ')', '\x7b'])
    (block : brace.rest = ['\x7b', '<', 'b', 'r', '/', '>', '\x7d', '\x7d'])
    (alone : Site.next ['v', 'i', 'e', 'w'] (brace.skipBytes 7) = none) {place : BlockPlace}
    (placed : blockPlace ['v', 'i', 'e', 'w'] (lead ++ breakItem) none start brace = some place) :
    (expand ['v', 'i', 'e', 'w'] (lead ++ breakItem) (n + 2) none (.start (lead ++ breakItem))).run (.ofOptions {}) =
      .ok ((lead ++ breakItemCode, 1), breakContext) := by
  have read : parseBlock (String.ofList brace.rest) = .ok ([lineBreak], 7) := block ▸ parse_lineBreak ['\x7d']
  have last : (brace.skipBytes 7).rest = ['\x7d'] := by
    rw [Spot.skipBytes, Spot.rest_skip, block]
    rfl
  have code : breakItemCode = ['f', 'n', ' ', 'a', '(', ')', '\x7b'] ++ "__TMPL.with(__clone)".toList ++ ['\x7d'] := by cbv
  rw [expand_built ⟨found, _, read, build_lineBreak⟩ placed]
  dsimp only
  rw [generate_break]
  simp only [expand, next_generated_break, alone]
  show Except.ok (((Spot.start (lead ++ breakItem)).textTo start ++ "__TMPL.with(__clone)".toList ++ (brace.skipBytes 7).rest, 1),
    breakContext) = _
  simp only [front, last, code, append_assoc]

def attributed : String := "#![allow(unused)]\nfn a()\x7bview!\x7b<br/>\x7d\x7d"

def attributedLead : List LeadPiece := [⟨"#![allow(unused)]".toList, true⟩, ⟨['\n'], false⟩]

def noted : String := "// note\n#![allow(unused)]\nfn a()\x7bview!\x7b<br/>\x7d\x7d"

def notedLead : List LeadPiece := [⟨"// note".toList, false⟩, ⟨['\n'], false⟩] ++ attributedLead

theorem leads_attributed : Leads attributedLead breakItemCode := by
  have code : breakItemCode = 'f' :: "n a()\x7b__TMPL.with(__clone)\x7d".toList := by cbv
  have newline : isBlank '\n' = true := by decide
  refine @Leads.innerAttribute [] [] "allow(unused)".toList _ _ (by simp) (.blank newline (.items ?_ ?_)) <;> rw [code]
  · rintro _ ⟨⟩
    decide
  · rfl

theorem leads_noted : Leads notedLead breakItemCode := by
  have newline : isBlank '\n' = true := by decide
  refine @Leads.lineComment " note".toList _ _ (by decide) ?_ (.blank newline leads_attributed)
  rintro _ ⟨⟩
  rfl

def breakStart (offset line : Nat) : Spot := ⟨⟨offset, line, 8⟩, some '\x7b', "view!\x7b<br/>\x7d\x7d".toList⟩

def breakBrace (offset line : Nat) : Spot := ⟨⟨offset, line, 13⟩, some '!', "\x7b<br/>\x7d\x7d".toList⟩

theorem expand_attributed (n : Nat) :
    (expand ['v', 'i', 'e', 'w'] attributed.toList (n + 2) none (.start attributed.toList)).run (.ofOptions {}) =
      .ok ((leadText attributedLead ++ breakItemCode, 1), breakContext) := by
  have text : attributed.toList = leadText attributedLead ++ breakItem := by cbv
  have found : Site.next ['v', 'i', 'e', 'w'] (.start (leadText attributedLead ++ breakItem)) =
    some (breakStart 25 2, breakBrace 30 2) := by cbv
  have placed : blockPlace ['v', 'i', 'e', 'w'] (leadText attributedLead ++ breakItem) none (breakStart 25 2) (breakBrace 30 2) =
    some ⟨25, 30, ⟨30, 2, 13⟩⟩ := by cbv
  rw [text]
  refine expand_breakItem n found ?_ ?_ ?_ placed <;> cbv

theorem expand_noted (n : Nat) :
    (expand ['v', 'i', 'e', 'w'] noted.toList (n + 2) none (.start noted.toList)).run (.ofOptions {}) =
      .ok ((leadText notedLead ++ breakItemCode, 1), breakContext) := by
  have text : noted.toList = leadText notedLead ++ breakItem := by cbv
  have found : Site.next ['v', 'i', 'e', 'w'] (.start (leadText notedLead ++ breakItem)) =
    some (breakStart 33 3, breakBrace 38 3) := by cbv
  have placed : blockPlace ['v', 'i', 'e', 'w'] (leadText notedLead ++ breakItem) none (breakStart 33 3) (breakBrace 38 3) =
    some ⟨33, 38, ⟨38, 3, 13⟩⟩ := by cbv
  rw [text]
  refine expand_breakItem n found ?_ ?_ ?_ placed <;> cbv

theorem compile_of_expand {source : String} {body : List Char} (some : source.toList ≠ [])
    (expanded : ∀ n, (expand ['v', 'i', 'e', 'w'] source.toList (n + 2) none (.start source.toList)).run (.ofOptions {}) =
      .ok ((body, 1), breakContext)) :
    compileModule source {} =
      .ok ⟨String.ofList (insertHeader (headerOf breakContext) body), 1, breakContext.declarations.entries.length⟩ := by
  obtain ⟨n, size⟩ := exists_eq_add_one_of_ne_zero (length_pos_iff.mpr some).ne'
  have keyword : ({} : Options).keyword.toList = ['v', 'i', 'e', 'w'] := by cbv
  unfold compileModule
  dsimp only
  rw [keyword, size, expanded n]
  rfl

theorem headerOf_break : headerOf breakContext ≠ [] := by
  have imported : breakContext.imports.isEmpty = false := by cbv
  simp [headerOf, Context.renderImports, imported]

/-- An attribute at the top of a file has the header behind it. -/
theorem header_stands_behind_iff_attributed : ∃ result front rest, compileModule attributed {} = .ok result ∧
    result.code.toList = front ++ rest ∧ StandsBehind attributedLead front := by
  have compiled := compile_of_expand (by simp [attributed]) expand_attributed
  obtain ⟨body, templates, context, front, back, expanded, -, -, split, code, stands⟩ := header_stands_behind_iff compiled
  have keyword : ({} : Options).keyword.toList = ['v', 'i', 'e', 'w'] := by cbv
  have size : attributed.toList.length + 1 = 37 + 2 := by cbv
  rw [keyword, size, expand_attributed] at expanded
  cases expanded
  refine ⟨_, front, _, compiled, code.trans (by simp only [append_assoc]; rfl), ?_⟩
  refine (stands _ _ leads_attributed rfl headerOf_break).mpr (.inr ?_)
  refine ⟨[⟨"#![allow(unused)]".toList, true⟩], [⟨['\n'], false⟩], rfl, by simp, ?_, ?_⟩
  · rintro c ⟨⟩
    rfl
  · rintro line inside
    obtain rfl := mem_singleton.mp inside
    exact .inr rfl

/-- An attribute behind a comment has the header in front of it. -/
theorem header_in_front_of_attribute : ∃ result, compileModule noted {} = .ok result ∧ Leads notedLead breakItemCode ∧
    result.code.toList = headerOf breakContext ++ '\n' :: (leadText notedLead ++ breakItemCode) ∧ headerOf breakContext ≠ [] ∧
    ¬ StandsBehind notedLead [] := by
  have place : headerPlace (leadText notedLead ++ breakItemCode) = 0 := by cbv
  refine ⟨_, compile_of_expand (by simp [noted]) expand_noted, leads_noted, ?_, headerOf_break, ?_⟩
  · rw [String.toList_ofList, insertHeader_eq headerOf_break, place]
    rw [take_zero, drop_zero, if_neg]
    · rw [nil_append, append_assoc, singleton_append]
    · rintro (none | newline)
      · exact headerOf_break none
      · cases newline
  · rintro ⟨before, after, split, empty, ordinary⟩
    have all : ∀ piece ∈ notedLead, piece.inner = false := by
      cases before with
      | nil => exact split ▸ ordinary
      | cons piece before =>
        obtain ⟨rfl, -⟩ := cons.inj split
        cases empty
    exact Bool.false_ne_true (all ⟨"#![allow(unused)]".toList, true⟩ (by simp [notedLead, attributedLead])).symm

end Notes

end LiveMarkup.Codegen.Module
