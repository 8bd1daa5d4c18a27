import LiveMarkup.Proofs.Lexing

/-!
The tokens of texts put together. Code keeps its tokens between blanks and brackets, and when its lines are moved, unless it
ends in a comment that goes on to the end of its line or a token has a line break in it.
-/

namespace LiveMarkup.Expression
open Text List Option
open Template (moved)

namespace Lexer

section Cutting

variable {cs a b t : List Char} {cuts more : List Cut} {rest : List Char} {cut : Cut} {u : List Char}

def Closed (cuts : List Cut) : Prop := ∀ cut ∈ cuts.getLast?, cut.isLine = false

theorem Closed.tail (closed : Closed (cut :: cuts)) (other : cuts ≠ []) : Closed cuts := by
  intro last mem
  exact closed last (by rwa [getLast?_cons_of_ne_nil other])

theorem Cuts.append (read : Cuts a cuts) (closed : Closed cuts) (stopped : Stopped t) (behind : Cuts t more) :
    Cuts (a ++ t) (cuts ++ more) := by
  induction read with
  | nil => exact behind
  | @cons _ rest cut cuts first others ih =>
    have later : Cuts (rest ++ t) (cuts ++ more) := by
      cases others with
      | nil => exact behind
      | cons => exact ih (closed.tail (cons_ne_nil _ _))
    cases line : cut.isLine with
    | false =>
      obtain ⟨_, -, rfl, again⟩ := cut?_local first line
      rw [append_assoc]
      exact .cons (again _ (similar_append rest stopped)) later
    | true =>
      obtain ⟨_, -, rfl, -, -, again⟩ := cut?_line first line
      -- the comment is not the last, so that its line ends in the text itself
      have full : rest ≠ [] := by
        rintro rfl
        cases others with
        | nil => exact absurd line (by rw [closed cut rfl]; decide)
        | cons next => cases next
      rw [append_assoc]
      exact .cons (again _ (head?_append_of_ne_nil _ full)) later

theorem Closed.append (before : List Cut) (closed : Closed cuts) (other : cuts ≠ []) : Closed (before ++ cuts) := by
  rwa [Closed, getLast?_append_of_ne_nil _ other]

theorem cut?_text (found : cut? (u ++ rest) = some (cut, rest)) : ∀ spelled ∈ cut.spelled?, spelled.text = u := by
  rintro _ made
  obtain ⟨c, -, -, rfl⟩ | ⟨-, rfl⟩ | ⟨-, -, rfl⟩ | ⟨c, same, -, rfl⟩ | ⟨-, -, rfl⟩ := cut?_cases found
  · cases made
  · cases made
  · obtain rfl := some.inj made
    exact take_length_append u rest
  · obtain rfl := some.inj made
    exact (append_cancel_right (show u ++ rest = [c] ++ rest from same)).symm
  · obtain rfl := some.inj made
    exact take_length_append u rest

theorem cuts_blanks (n : Nat) (read : Cuts t more) : Cuts (replicate n ' ' ++ t) (replicate n .gap ++ more) := by
  induction n with
  | zero => exact read
  | succ _ ih => exact .cons (cut?_gap (by decide) _) ih

/-- What is made of one step when lines are moved: line breaks are followed by more gaps. -/
structure Moves (n : Nat) (cut : Cut) (u rest : List Char) (before : List Cut) : Prop where
  full : before ≠ []
  same : before.filterMap Cut.spelled? = [cut].filterMap Cut.spelled?
  closed : cut.isLine = false → Closed before
  put : ∀ more, Cuts (moved n rest) more → Cuts (moved n u ++ moved n rest) (before ++ more)

theorem moves_flat {n : Nat} (flat : '\n' ∉ u) (again : cut? (u ++ moved n rest) = some (cut, moved n rest)) :
    Moves n cut u rest [cut] :=
  ⟨cons_ne_nil _ _, rfl, fun line _ last => some.inj last ▸ line,
    fun more read => by rw [moved_line n flat]; exact .cons again read⟩

theorem cut?_moved (n : Nat) (first : cut? cs = some (cut, rest)) (whole : ∀ spelled ∈ cut.spelled?, '\n' ∉ spelled.text) :
    ∃ u before, cs = u ++ rest ∧ Moves n cut u rest before := by
  by_cases line : cut.isLine = true
  · obtain ⟨u, -, rfl, flat, -, again⟩ := cut?_line first line
    exact ⟨u, [cut], rfl, moves_flat flat (again _ (head?_moved n rest))⟩
  · rw [Bool.not_eq_true] at line
    obtain ⟨u, -, rfl, again⟩ := cut?_local first line
    by_cases flat : '\n' ∈ u
    · -- a line break is a gap or inside a comment, since no token has one
      have text := cut?_text first
      obtain ⟨c, same, _, rfl⟩ | ⟨comment, rfl⟩ | ⟨-, -, rfl⟩ | ⟨c, -, -, rfl⟩ | ⟨-, -, rfl⟩ := cut?_cases first
      · obtain rfl : u = [c] := append_cancel_right (show u ++ rest = [c] ++ rest from same)
        obtain rfl : '\n' = c := mem_singleton.mp flat
        refine ⟨['\n'], replicate (n + 1) .gap, rfl, by simp, ?_, fun _ cut last => ?_, fun more read => ?_⟩
        · simp [filterMap_replicate, Cut.spelled?]
        · rw [eq_of_mem_replicate (mem_of_getLast? last)]
          rfl
        · have put := cuts_blanks n read
          rw [moved_cons, if_pos rfl, show moved n [] = [] from rfl, append_nil]
          exact .cons (cut?_gap (by decide) _) put
      · obtain ⟨_, -, same, -, shifts⟩ := cut?_block n comment line
        obtain rfl := append_cancel_right same
        refine ⟨u, [_], rfl, cons_ne_nil _ _, rfl, fun line _ last => some.inj last ▸ line, fun more read => ?_⟩
        rw [show isLineComment (u ++ rest) = false from line]
        exact .cons (shifts _) read
      all_goals
        refine absurd flat ?_
        rw [← text _ rfl]
        exact whole _ rfl
    · exact ⟨u, [cut], rfl, moves_flat flat (again _ (similar_moved n rest))⟩

theorem Cuts.moved (n : Nat) (read : Cuts cs cuts) (whole : ∀ spelled ∈ cuts.filterMap Cut.spelled?, '\n' ∉ spelled.text) :
    ∃ more, Cuts (moved n cs) more ∧ more.filterMap Cut.spelled? = cuts.filterMap Cut.spelled? ∧ (cuts ≠ [] → more ≠ []) ∧
      (Closed cuts → Closed more) := by
  induction read with
  | nil => exact ⟨[], .nil, rfl, id, id⟩
  | @cons _ _ cut cuts first others ih =>
    obtain ⟨more, read, same, full, closed⟩ := ih fun spelled member => whole spelled (by
      obtain ⟨cut, mem, made⟩ := mem_filterMap.mp member
      exact mem_filterMap.mpr ⟨cut, mem_cons_of_mem _ mem, made⟩)
    obtain ⟨_, before, rfl, some, one, ends, put⟩ := cut?_moved n first fun spelled made =>
      whole spelled (mem_filterMap.mpr ⟨cut, mem_cons_self, made⟩)
    refine ⟨before ++ more, ?_, ?_, fun _ => by simp [some], fun whole => ?_⟩
    · rw [moved_append]
      exact put more read
    · rw [filterMap_append, one, same, ← filterMap_append, singleton_append]
    · by_cases last : cuts = []
      · subst last
        cases others with
        | nil =>
          cases read with
          | nil => simpa using ends (whole cut rfl)
          | cons next => cases next
      · exact (closed (whole.tail last)).append before (full last)

end Cutting

section Spelling

variable {cs a b t : List Char} {tokens more : List Spelled}

/-- The tokens that a text is cut into. It can be put in front of a stop. -/
def Reads (cs : List Char) (tokens : List Spelled) : Prop :=
  ∃ cuts, Cuts cs cuts ∧ cuts.filterMap Cut.spelled? = tokens ∧ Closed cuts

def Leads (cs : List Char) (tokens : List Spelled) : Prop :=
  ∀ behind more, Reads behind more → Reads (cs ++ behind) (tokens ++ more)

theorem reads_nil : Reads [] [] := ⟨[], .nil, rfl, nofun⟩

theorem Reads.append (first : Reads a tokens) (stopped : Stopped t) (second : Reads t more) : Reads (a ++ t) (tokens ++ more) := by
  obtain ⟨cuts, read, rfl, closed⟩ := first
  obtain ⟨others, behind, rfl, ends⟩ := second
  refine ⟨cuts ++ others, read.append closed stopped behind, filterMap_append, ?_⟩
  by_cases last : others = []
  · rwa [last, append_nil]
  · exact ends.append cuts last

theorem Reads.moved (n : Nat) (read : Reads cs tokens) (whole : ∀ spelled ∈ tokens, '\n' ∉ spelled.text) :
    Reads (moved n cs) tokens := by
  obtain ⟨_, read, rfl, closed⟩ := read
  obtain ⟨more, moves, same, -, ends⟩ := read.moved n whole
  exact ⟨more, moves, same, ends closed⟩

theorem Leads.reads (leads : Leads cs tokens) : Reads cs tokens := by
  have whole := leads [] [] reads_nil
  rwa [append_nil, append_nil] at whole

theorem leads_nil : Leads [] [] := fun _ _ read => read

theorem Leads.append (first : Leads a tokens) (second : Leads b more) : Leads (a ++ b) (tokens ++ more) := by
  intro behind others read
  rw [append_assoc, append_assoc]
  exact first _ _ (second _ _ read)

theorem Reads.leads (first : Reads a tokens) (stopped : Stopped b) (full : b ≠ []) (second : Leads b more) :
    Leads (a ++ b) (tokens ++ more) := by
  intro behind others read
  rw [append_assoc, append_assoc]
  refine first.append (fun c head => stopped c ?_) (second _ _ read)
  rwa [head?_append_of_ne_nil _ full] at head

theorem leads_of_cut? {cut : Cut} (taken : ∀ t, cut? (a ++ t) = some (cut, t)) (closed : cut.isLine = false) :
    Leads a ([cut].filterMap Cut.spelled?) := by
  rintro behind _ ⟨cuts, read, rfl, ends⟩
  refine ⟨cut :: cuts, .cons (taken behind) read, filterMap_append (l := [cut]), ?_⟩
  by_cases last : cuts = []
  · subst last
    exact fun _ same => some.inj same ▸ closed
  · exact ends.append [cut] last

end Spelling

variable {fuel : Nat}

section Computing

variable {cs : List Char} {tokens : List Spelled}

def cuts? : Nat → List Char → Option (List Cut)
  | 0, _ => none
  | _, [] => some []
  | fuel + 1, cs => (cut? cs).bind fun (cut, rest) => (cuts? fuel rest).map (cut :: ·)

def spelling? (cs : List Char) : Option (List Spelled) :=
  (cuts? (cs.length + 1) cs).bind fun cuts => if cuts.getLast?.any Cut.isLine then none else some (cuts.filterMap Cut.spelled?)

def spelling (cs : List Char) : List Spelled := (spelling? cs).getD []

theorem cut?_shorter {cut : Cut} {rest : List Char} (found : cut? cs = some (cut, rest)) : rest.length < cs.length := by
  have longer {u : List Char} (full : u ≠ []) : rest.length < (u ++ rest).length := by
    have pos := length_pos_iff.mpr full
    rw [length_append]
    omega
  by_cases line : cut.isLine = true
  · obtain ⟨_, full, rfl, -⟩ := cut?_line found line
    exact longer full
  · obtain ⟨_, full, rfl, -⟩ := cut?_local found (by simpa using line)
    exact longer full

theorem cuts?_iff {cuts : List Cut} (enough : cs.length < fuel) : cuts? fuel cs = some cuts ↔ Cuts cs cuts := by
  induction fuel generalizing cs cuts with
  | zero => omega
  | succ _ ih =>
    cases cs with
    | nil =>
      constructor
      · rintro ⟨⟩
        exact .nil
      · rintro (_ | ⟨first, -⟩)
        · rfl
        · cases first
    | cons =>
      rw [cuts?, bind_eq_some_iff]
      constructor
      · rintro ⟨⟨_, _⟩, first, read⟩
        dsimp only at read
        obtain ⟨_, behind, rfl⟩ := map_eq_some_iff.mp read
        have shorter := cut?_shorter first
        exact .cons first ((ih (by omega)).mp behind)
      · rintro (_ | ⟨first, others⟩)
        have shorter := cut?_shorter first
        refine ⟨_, first, ?_⟩
        dsimp only
        rw [(ih (by omega)).mpr others]
        rfl
      · exact nofun

theorem spelling?_iff : spelling? cs = some tokens ↔ Reads cs tokens := by
  rw [spelling?, bind_eq_some_iff]
  refine exists_congr fun cuts => and_congr (cuts?_iff (Nat.lt_succ_self _)) ?_
  have closed : ¬ cuts.getLast?.any Cut.isLine = true ↔ Closed cuts := by
    unfold Closed
    cases cuts.getLast? <;> simp
  rw [ite_none_left_eq_some, some.injEq, closed, and_comm]

theorem Reads.spelling_eq (read : Reads cs tokens) : spelling cs = tokens := by
  rw [spelling, spelling?_iff.mpr read]
  rfl

end Computing

section Marks

variable {cs t : List Char} {tokens more : List Spelled} {c : Char}

def isMark (c : Char) : Bool := c == ' ' || c == '\n' || isBracket c

theorem mem_stops_of_isMark (mark : isMark c = true) : c ∈ stops := by
  rw [isMark, Bool.or_eq_true, Bool.or_eq_true, beq_iff_eq, beq_iff_eq] at mark
  obtain (rfl | rfl) | bracket := mark
  · decide
  · decide
  · have all : ['(', '[', '\x7b', ')', ']', '\x7d'].all (stops.contains ·) = true := by decide
    simpa using all_eq_true.mp all c (bracket_cases bracket)

theorem leads_mark (mark : isMark c = true) : Leads [c] (spelling [c]) := by
  have leads : ∃ tokens, Leads [c] tokens := by
    rw [isMark, Bool.or_eq_true, Bool.or_eq_true, beq_iff_eq, beq_iff_eq] at mark
    obtain (rfl | rfl) | bracket := mark
    · exact ⟨_, leads_of_cut? (cut?_gap (by decide)) rfl⟩
    · exact ⟨_, leads_of_cut? (cut?_gap (by decide)) rfl⟩
    · exact ⟨_, leads_of_cut? (cut?_bracket bracket) rfl⟩
  obtain ⟨_, leads⟩ := leads
  rwa [leads.reads.spelling_eq]

def isLead (cs : List Char) : Bool :=
  match cs.getLast? with
  | some c => isMark c && (spelling? cs.dropLast).isSome
  | none => true

theorem leads_of_isLead (lead : isLead cs = true) : Leads cs (spelling cs) := by
  rcases eq_nil_or_concat' cs with rfl | ⟨front, c, rfl⟩
  · exact leads_nil
  · rw [isLead, getLast?_concat, dropLast_concat, Bool.and_eq_true, isSome_iff_exists] at lead
    obtain ⟨mark, _, read⟩ := lead
    have stopped : Stopped [c] := fun d head => some.inj head ▸ mem_stops_of_isMark mark
    have leads := (spelling?_iff.mp read).leads stopped (cons_ne_nil c []) (leads_mark mark)
    rwa [leads.reads.spelling_eq]

def OwnName (cs : List Char) : Prop := ∃ rest, cs = '_' :: rest ∧ ∀ c ∈ rest, isIdentifierPart c = true

theorem ownName_of_all {rest : List Char} (parts : rest.all isIdentifierPart = true) : OwnName ('_' :: rest) :=
  ⟨rest, rfl, all_eq_true.mp parts⟩

section

variable (name : OwnName cs)
include name

theorem OwnName.flat : '\n' ∉ cs := by
  obtain ⟨_, rfl, part⟩ := name
  intro mem
  rcases mem_cons.mp mem with same | mem
  · exact absurd same (by decide)
  · exact absurd (part _ mem) (by decide)

theorem OwnName.append {more : List Char} (part : ∀ c ∈ more, isIdentifierPart c = true) : OwnName (cs ++ more) := by
  obtain ⟨rest, rfl, all⟩ := name
  exact ⟨rest ++ more, rfl, fun c mem => (mem_append.mp mem).elim (all c) (part c)⟩

theorem startsOperator_name (t : List Char) : startsOperator (cs ++ t) = false := by
  obtain ⟨rest, rfl, -⟩ := name
  show (isPunct ('_' :: rest ++ t) && operatorChars.contains '_') = false
  rw [show operatorChars.contains '_' = false by decide, Bool.and_false]

theorem cut?_name (apart : ∀ c ∈ t.head?, isIdentifierPart c = false) :
    cut? (cs ++ t) = some (.token ⟨cs, false⟩, t) := by
  obtain ⟨rest, rfl, part⟩ := name
  have word : Number.suffix ('_' :: rest ++ t) = '_' :: rest := by
    have run : (rest ++ t).takeWhile isIdentifierPart = rest := by
      rw [takeWhile_append_of_pos part]
      cases t with
      | nil => simp
      | cons c => simp [apart c rfl]
    simp [Number.suffix, isIdentifierStart, run]
  have ident : ident? ('_' :: rest ++ t) = some (String.ofList ('_' :: rest), t) := by
    have marks : ["r\"", "r#\"", "r##", "b\"", "b'", "br\"", "br#", "c\"", "cr\"", "cr#"].any
        (startsWith · ('_' :: rest ++ t)) = false := by simp [startsWith, isPrefixOf]
    rw [ident?, marks, anyIdent?_plain (by simp), word?, word]
    simp
  rw [cut?_leaf (fun c head => by obtain rfl := some.inj head; decide) (leaf?_of_ident ident), take_length_append, spell,
    ← append_nil ('_' :: rest), startsOperator_name ⟨rest, rfl, part⟩, Bool.and_false, Bool.false_and]

theorem reads_name_append (apart : ∀ c ∈ t.head?, isIdentifierPart c = false) (read : Reads t tokens) :
    Reads (cs ++ t) (⟨cs, false⟩ :: tokens) := by
  obtain ⟨cuts, read, rfl, closed⟩ := read
  refine ⟨_, .cons (cut?_name name apart) read, rfl, ?_⟩
  by_cases last : cuts = []
  · subst last
    exact fun _ same => some.inj same ▸ rfl
  · exact closed.append [_] last

theorem reads_name : Reads cs [⟨cs, false⟩] := by
  have none : ∀ c ∈ ([] : List Char).head?, isIdentifierPart c = false := fun c head => nomatch head
  simpa using reads_name_append name none reads_nil

theorem reads_reference : Reads ('&' :: cs) [⟨['&'], false⟩, ⟨cs, false⟩] := by
  have apart : startsOperator cs = false := by simpa using startsOperator_name name []
  have punct : punct? ('&' :: cs) = some (.punct '&' (isPunct cs), cs) := by
    have mark : isPunct ('&' :: cs) = true := by rfl
    simp [punct?, mark]
  have first : cut? ('&' :: cs) = some (.token ⟨['&'], false⟩, cs) := by
    rw [cut?_leaf (fun c head => by obtain rfl := some.inj head; decide) (leaf?_of_punct punct), spell, apart,
      Bool.and_false, ← singleton_append, take_length_append]
  obtain ⟨_, read, tokens, closed⟩ := reads_name name
  refine ⟨_, .cons first read, by rw [← tokens]; rfl, closed.append [_] ?_⟩
  rintro rfl
  cases tokens

end

def escaped : Char → List Char
  | '\\' => ['\\', '\\']
  | '"' => ['\\', '"']
  | '\n' => ['\\', 'n']
  | '\r' => ['\\', 'r']
  | '\t' => ['\\', 't']
  | c => [c]

theorem string?_escaped (fuel : Nat) (c : Char) (rest : List Char) : Quotation.string? .text (fuel + 1) (escaped c ++ rest) =
    (Quotation.string? .text fuel rest).map fun (value, behind) => (c :: value, behind) := by
  unfold escaped
  split
  case h_6 backslash quote feed back tab =>
    rw [singleton_append, Quotation.string?_cons]
    dsimp only
    rw [if_neg quote, if_neg back, if_neg backslash]
    rfl
  all_goals
    rw [cons_append, Quotation.string?_cons]
    simp [Quotation.escape?]

theorem string?_flatMap (s : List Char) (enough : s.length < fuel) :
    Quotation.string? .text fuel (s.flatMap escaped ++ ['"']) = some (s, []) := by
  induction s generalizing fuel with
  | nil =>
    obtain ⟨fuel, rfl⟩ := Nat.exists_eq_succ_of_ne_zero (by omega : fuel ≠ 0)
    rw [flatMap_nil, nil_append, Quotation.string?_cons]
    rfl
  | cons _ _ ih =>
    obtain ⟨fuel, rfl⟩ := Nat.exists_eq_succ_of_ne_zero (by omega : fuel ≠ 0)
    rw [flatMap_cons, append_assoc, string?_escaped, ih (by rw [length_cons] at enough; omega)]
    rfl

theorem length_flatMap_escaped (s : List Char) : s.length ≤ (s.flatMap escaped).length := by
  induction s with
  | nil => exact Nat.le_refl 0
  | cons c =>
    have some : 1 ≤ (escaped c).length := by
      unfold escaped
      split <;> simp
    rw [flatMap_cons, length_append, length_cons]
    omega

theorem reads_quotation {value : Literal} (found : Quotation.read? cs = some (value, []))
    (quote : cs.head? = some '"') : Reads cs [⟨cs, false⟩] := by
  obtain ⟨body, rfl⟩ := head?_eq_some_iff.mp quote
  have leaf : leaf? ('"' :: body) = some (.literal value, []) := by simp [leaf?, found]
  have first : cut? ('"' :: body) = some (.token ⟨'"' :: body, false⟩, []) := by
    rw [cut?_leaf (fun c head => by obtain rfl := some.inj head; decide) leaf, spell]
    simp [startsOperator, isPunct]
  exact ⟨_, .cons first .nil, rfl, fun _ last => some.inj last ▸ rfl⟩

theorem reads_escaped (s : List Char) :
    Reads ('"' :: s.flatMap escaped ++ ['"']) [⟨'"' :: s.flatMap escaped ++ ['"'], false⟩] := by
  have read : Quotation.read? ('"' :: s.flatMap escaped ++ ['"']) = some (.text (String.ofList s), []) := by
    rw [Quotation.read?]
    show (Option.map _ ((Quotation.string? .text _ (s.flatMap escaped ++ ['"'])).map _)) = _
    rw [string?_flatMap]
    · rfl
    · have long := length_flatMap_escaped s
      simp only [cons_append, length_cons, length_append]
      omega
  exact reads_quotation read rfl

theorem not_newline_escaped (s : List Char) : '\n' ∉ '"' :: s.flatMap escaped ++ ['"'] := by
  have each (c : Char) : '\n' ∉ escaped c := by
    unfold escaped
    split <;> simp_all
    rintro rfl
    contradiction
  simp [each]

end Marks
end Lexer
end LiveMarkup.Expression
