import LiveMarkup.Proofs.Naming
import Mathlib.Data.String.Basic

/-!
Places in a source text. A parser that starts at an index of a text stays in that text: what it gives says at which index
each construct starts and what stands there, and the constructs it notes as failed cannot be read at the index it notes.
-/

namespace LiveMarkup.Template
open Text List Grammar Position

namespace Position

@[simp] theorem pastAll_cons (p : Position) (c : Char) (cs : List Char) : p.pastAll (c :: cs) = (p.past c).pastAll cs := rfl

theorem pastAll_append (p : Position) (cs ds : List Char) : p.pastAll (cs ++ ds) = (p.pastAll cs).pastAll ds :=
  foldl_append

theorem offset_pastAll (p : Position) (cs : List Char) : (p.pastAll cs).offset = p.offset + String.utf8Len cs := by
  induction cs generalizing p with
  | nil => rfl
  | cons c _ ih =>
    have one : (p.past c).offset = p.offset + c.utf8Size := by
      unfold past
      split <;> rfl
    rw [pastAll_cons, ih, one, String.utf8Len_cons]
    omega

theorem line_pastAll (p : Position) (cs : List Char) : (p.pastAll cs).line = p.line + cs.count '\n' := by
  induction cs generalizing p with
  | nil => rfl
  | cons c _ ih =>
    rw [pastAll_cons, ih]
    by_cases feed : c = '\n'
    · simp only [past, feed, if_true, count_cons_self]
      omega
    · simp [past, feed]

theorem column_pastAll (p : Position) (cs : List Char) :
    (p.pastAll cs).column = if '\n' ∈ cs then (({} : Position).pastAll cs).column else p.column + cs.length := by
  induction cs generalizing p with
  | nil => rfl
  | cons c cs ih =>
    rw [pastAll_cons, pastAll_cons, ih, ih (({} : Position).past c)]
    by_cases feed : c = '\n'
    · simp [past, feed]
    · by_cases later : '\n' ∈ cs
      · simp [later]
      · simp only [later, mem_cons, Ne.symm feed, or_self, if_false, past, feed, length_cons]
        omega

end Position

def placeAt (source : List Char) (i : Nat) : Position := ({} : Position).pastAll (source.take i)

theorem placeAt_add (source : List Char) (i n : Nat) :
    placeAt source (i + n) = (placeAt source i).pastAll ((source.drop i).take n) := by
  rw [placeAt, take_add, pastAll_append, placeAt]

def CompileError.IsAt (error : CompileError) (p : Position) : Prop := error.line = p.line ∧ error.column = p.column

theorem CompileError.IsAt.offset {error : CompileError} {cs : List Char} (there : error.IsAt (({} : Position).pastAll cs))
    (p : Position) : (error.offset p.line p.column).IsAt (p.pastAll cs) := by
  obtain ⟨line, column⟩ := there
  have first : error.line = 1 ↔ '\n' ∉ cs := by
    rw [line, line_pastAll, ← count_eq_zero]
    simp
  constructor
  · simp only [CompileError.offset, line, line_pastAll]
    omega
  · rw [column_pastAll] at column ⊢
    simp only [CompileError.offset, first]
    by_cases feed : '\n' ∈ cs
    · simpa [feed] using column
    · simp only [feed, if_false, not_false_iff, if_true] at column ⊢
      omega

def moved (n : Nat) (cs : List Char) : List Char := cs.flatMap fun c => if c = '\n' then '\n' :: replicate n ' ' else [c]

theorem pastAll_blanks (p : Position) (n : Nat) :
    (p.pastAll (replicate n ' ')).line = p.line ∧ (p.pastAll (replicate n ' ')).column = p.column + n := by
  have none : '\n' ∉ replicate n ' ' := by simp
  constructor
  · rw [line_pastAll, count_eq_zero_of_not_mem none]
    omega
  · rw [column_pastAll, if_neg none, length_replicate]

theorem pastAll_moved (p : Position) (n : Nat) (cs : List Char) : (p.pastAll (moved n cs)).line = (p.pastAll cs).line ∧
      (p.pastAll (moved n cs)).column = (p.pastAll cs).column + if '\n' ∈ cs then n else 0 := by
  induction cs generalizing p with
  | nil => exact ⟨rfl, rfl⟩
  | cons c cs ih =>
    by_cases feed : c = '\n'
    · subst feed
      have split : moved n ('\n' :: cs) = '\n' :: (replicate n ' ' ++ moved n cs) := by simp [moved]
      obtain ⟨line, column⟩ := ih ((p.past '\n').pastAll (replicate n ' '))
      obtain ⟨blankLine, blankColumn⟩ := pastAll_blanks (p.past '\n') n
      rw [split, pastAll_cons, pastAll_append, pastAll_cons]
      -- a later line break sets the column back, so that only the blanks behind the last one count
      rw [line, column, line_pastAll, column_pastAll, line_pastAll _ cs,
        column_pastAll (p.past '\n') cs, blankLine, blankColumn]
      refine ⟨rfl, ?_⟩
      by_cases later : '\n' ∈ cs
      · simp [later]
      · simp only [later, if_false, mem_cons, or_false, if_true]
        omega
    · have split : moved n (c :: cs) = c :: moved n cs := by simp [moved, feed]
      obtain ⟨line, column⟩ := ih (p.past c)
      rw [split, pastAll_cons, pastAll_cons, line, column]
      simp [Ne.symm feed]

def cursorAt (source : List Char) (i : Nat) : Cursor := ⟨placeAt source i, source.drop i⟩

@[simp] theorem skip_cursorAt (source : List Char) (i n : Nat) : (cursorAt source i).skip n = cursorAt source (i + n) := by
  simp [Cursor.skip, cursorAt, placeAt_add]

theorem cursorAt_eq_of_offset {source : List Char} {i k : Nat} (same : (placeAt source i).offset = (placeAt source k).offset) :
    cursorAt source i = cursorAt source k := by
  have ordered : ∀ {i k : Nat}, i ≤ k → (placeAt source i).offset = (placeAt source k).offset →
      cursorAt source i = cursorAt source k := by
    intro i k le same
    obtain ⟨n, rfl⟩ := Nat.exists_eq_add_of_le le
    rw [placeAt_add, offset_pastAll, Nat.left_eq_add, String.utf8Len_eq_zero] at same
    have rest : source.drop i = source.drop (i + n) := by
      have parts := take_append_drop n (source.drop i)
      rwa [same, nil_append, drop_drop, eq_comm] at parts
    rw [cursorAt, cursorAt, placeAt_add, same, rest]
    rfl
  rcases Nat.le_total i k with le | le
  · exact ordered le same
  · exact (ordered le same.symm).symm

/-- The parsers that are run as constructs of a block. -/
inductive Grammar.IsRule : Construct → {α : Type} → Parser α → Prop
  | viewBlock : IsRule .viewBlock viewBlock
  | fragment (fuel : Nat) : IsRule .fragment (fragment (nodes fuel))
  | element (fuel : Nat) : IsRule .element (element (nodes fuel))
  | selfClose : IsRule .selfClose (Parser.construct .selfClose (Parser.literal "/>"))
  | closeTag : IsRule .closeTag closeTag
  | tagName : IsRule .tagName tagName
  | spreadAttribute : IsRule .spreadAttribute spreadAttribute
  | namedAttribute : IsRule .namedAttribute namedAttribute
  | attributeName : IsRule .attributeName (Parser.construct .attributeName Parser.name)
  | attributeString : IsRule .attributeString attributeString
  | attributeExpression : IsRule .attributeExpression attributeExpression
  | expression : IsRule .expression expression
  | text : IsRule .text text

/-- The construct is tried in front of a text and cannot be read. -/
def Construct.Fails (name : Construct) (text : List Char) : Prop :=
  ∃ (α : Type) (rule : Parser α) (cursor : Cursor) (attempts : Attempts),
    Grammar.IsRule name rule ∧ cursor.rest = text ∧ (rule cursor attempts).1 = none

def Attempts.In (source : List Char) (attempts : Attempts) : Prop :=
  ∃ k, attempts.position = placeAt source k ∧ ∀ name ∈ attempts.constructs, name.Fails (source.drop k)

theorem Attempts.In.fail {source : List Char} {attempts : Attempts} (mem : attempts.In source) {name : Construct} {i : Nat}
    (fails : name.Fails (source.drop i)) (before : Nat) : (attempts.fail name (placeAt source i) before).In source := by
  unfold Attempts.fail
  split
  · exact mem
  · split
    · rename_i same
      obtain ⟨k, there, failed⟩ := mem
      rw [there] at same
      have rest : source.drop i = source.drop k := congrArg Cursor.rest (cursorAt_eq_of_offset same)
      refine ⟨k, there, fun other noted => ?_⟩
      rcases mem_append.mp noted with earlier | new
      · exact failed other (mem_of_mem_take earlier)
      · obtain rfl := mem_singleton.mp new
        exact rest ▸ fails
    · split
      · refine ⟨i, rfl, fun other noted => ?_⟩
        obtain rfl := mem_singleton.mp noted
        exact fails
      · exact mem

namespace Parser

variable {α β : Type} {source : List Char} {i : Nat} {parser : Parser α}

section Logic

/-- From index `i` of a text a parser stays in the text, and what it gives is good together with the index it gets to. -/
def Reads (source : List Char) (i : Nat) (parser : Parser α) (good : α → Nat → Prop) : Prop :=
  ∀ attempts : Attempts, attempts.In source →
    (parser (cursorAt source i) attempts).2.In source ∧
      ∀ value cursor, (parser (cursorAt source i) attempts).1 = some (value, cursor) →
        ∃ j, cursor = cursorAt source j ∧ good value j

variable {good : α → Nat → Prop} {fine : β → Nat → Prop}

theorem reads_pure {value : α} (holds : good value i) : Reads source i (pure value) good := by
  intro attempts mem
  refine ⟨mem, fun other cursor given => ?_⟩
  obtain ⟨rfl, rfl⟩ := Prod.mk.inj (Option.some.inj given)
  exact ⟨i, rfl, holds⟩

theorem reads_failure : Reads source i (failure : Parser α) good := by
  intro attempts mem
  refine ⟨mem, fun value cursor given => ?_⟩
  cases given

theorem Reads.mono {better : α → Nat → Prop} (reads : Reads source i parser better)
    (weaker : ∀ value j, better value j → good value j) : Reads source i parser good := by
  intro attempts mem
  obtain ⟨after, gives⟩ := reads attempts mem
  refine ⟨after, fun value cursor given => ?_⟩
  obtain ⟨j, there, holds⟩ := gives value cursor given
  exact ⟨j, there, weaker value j holds⟩

theorem Reads.bind {next : α → Parser β} (first : Reads source i parser good)
    (then_ : ∀ value j, good value j → Reads source j (next value) fine) : Reads source i (parser >>= next) fine := by
  intro attempts mem
  obtain ⟨after, gives⟩ := first attempts mem
  rw [bind_apply]
  split
  · rename_i value cursor later found
    rw [found] at after gives
    obtain ⟨j, rfl, holds⟩ := gives value cursor rfl
    exact then_ value j holds later after
  · rename_i later found
    rw [found] at after
    refine ⟨after, fun value cursor given => ?_⟩
    cases given

theorem Reads.orElse {first second : Parser α} (one : Reads source i first good) (two : Reads source i second good) :
    Reads source i (first <|> second) good := by
  intro attempts mem
  have tried := one attempts mem
  rw [orElse_apply]
  split
  · rename_i result later found
    rwa [found] at tried
  · rename_i later found
    rw [found] at tried
    exact two later tried.1

theorem Reads.construct {body : Parser α} {name : Construct} (reads : Reads source i body good)
    (rule : Grammar.IsRule name (construct name body)) : Reads source i (construct name body) good := by
  intro attempts mem
  have ran := reads attempts mem
  have failed : (body (cursorAt source i) attempts).1 = none → name.Fails (source.drop i) := fun none =>
    ⟨α, _, cursorAt source i, attempts, rule, rfl, (construct_result ..).trans none⟩
  unfold Parser.construct
  dsimp only
  split
  · rename_i result later found
    rwa [found] at ran
  · rename_i later found
    rw [found] at ran
    rw [found] at failed
    refine ⟨ran.1.fail (failed rfl) _, fun value cursor given => ?_⟩
    cases given

theorem Reads.many {item : Parser α} {each : α → Prop} (reads : ∀ i, Reads source i item fun value _ => each value)
    (fuel : Nat) : Reads source i (many item fuel) fun items _ => ∀ item ∈ items, each item := by
  induction fuel generalizing i with
  | zero => exact reads_pure (by simp)
  | succ _ ih =>
    refine Reads.orElse ?_ (reads_pure (by simp))
    refine (reads i).bind fun first j holds => ih.bind fun others k all => reads_pure ?_
    simpa using ⟨holds, all⟩

end Logic

theorem reads_get : Reads source i get fun cursor j => j = i ∧ cursor = cursorAt source i := by
  intro attempts mem
  refine ⟨mem, fun value cursor given => ?_⟩
  obtain ⟨rfl, rfl⟩ := Prod.mk.inj (Option.some.inj given)
  exact ⟨i, rfl, rfl, rfl⟩

theorem reads_position : Reads source i position fun p j => j = i ∧ p = placeAt source i :=
  reads_get.bind fun _ _ found => reads_pure ⟨found.1, by rw [found.2]; rfl⟩

theorem reads_rest : Reads source i rest fun cs j => j = i ∧ cs = source.drop i :=
  reads_get.bind fun _ _ found => reads_pure ⟨found.1, by rw [found.2]; rfl⟩

theorem reads_takeChars (n : Nat) :
    Reads source i (takeChars n) fun text j => j = i + n ∧ text.toList = (source.drop i).take n := by
  intro attempts mem
  refine ⟨mem, fun value cursor given => ?_⟩
  obtain ⟨rfl, rfl⟩ := Prod.mk.inj (Option.some.inj given)
  refine ⟨i + n, skip_cursorAt source i n, rfl, ?_⟩
  rw [String.toList_ofList]
  rfl

theorem discard_eq_bind (parser : Parser α) : discard parser = parser >>= fun _ => pure () := by
  rw [← map_eq_pure_bind]
  rfl

theorem reads_discard {good : Nat → Prop} (reads : Reads source i parser fun _ j => good j) :
    Reads source i (discard parser) fun _ j => good j := by
  rw [discard_eq_bind]
  exact reads.bind fun _ _ holds => reads_pure holds

theorem reads_literal (text : String) :
    Reads source i (literal text) fun _ j => source.drop i = text.toList ++ source.drop j := by
  refine reads_rest.bind fun cs j found => ?_
  obtain ⟨rfl, rfl⟩ := found
  split
  · rename_i starts
    obtain ⟨_, whole⟩ := isPrefixOf_iff_prefix.mp starts
    refine reads_discard ((reads_takeChars _).mono fun taken k found => ?_)
    rw [found.1, ← drop_drop, ← whole, drop_left]
  · exact reads_failure

theorem reads_whileChars (p : Char → Bool) :
    Reads source i (whileChars p) fun text j => source.drop i = text.toList ++ source.drop j ∧ ∀ c ∈ text.toList, p c := by
  refine reads_rest.bind fun cs j found => ?_
  obtain ⟨rfl, rfl⟩ := found
  refine (reads_takeChars _).mono fun text k taken => ?_
  have whole : text.toList = (source.drop j).takeWhile p := by
    rw [taken.2]
    exact (prefix_iff_eq_take.mp ( takeWhile_prefix _)).symm
  constructor
  · rw [taken.1, taken.2, ← drop_drop, take_append_drop]
  · rw [whole]
    exact fun c mem => all_eq_true.mp all_takeWhile c mem

theorem reads_spaces :
    Reads source i spaces fun _ j => ∃ gap, source.drop i = gap ++ source.drop j ∧ ∀ c ∈ gap, isSpace c :=
  reads_discard ((reads_whileChars isSpace).mono fun text _ found => ⟨text.toList, found⟩)

theorem reads_name : Reads source i name fun text j => source.drop i = text.toList ++ source.drop j := by
  refine reads_rest.bind fun cs j found => ?_
  obtain ⟨rfl, rfl⟩ := found
  split
  · split
    · exact (reads_whileChars _).mono fun text k found => found.1
    · exact reads_failure
  · exact reads_failure

theorem drop_lengthToClose? {depth n : Nat} {cs : List Char} (found : Code.lengthToClose? depth cs = some n) :
    ∃ behind, cs.drop n = '\x7d' :: behind := by
  fun_induction Code.lengthToClose? depth cs generalizing n with
  | case1 => cases found
  | case2 => 
    obtain rfl := Option.some.inj found
    exact ⟨_, rfl⟩
  | case3 _ _ ih | case4 _ _ _ ih =>
    obtain ⟨_, inner, rfl⟩ := Option.map_eq_some_iff.mp found
    exact ih inner
  | case5 =>
    rename_i ih
    obtain ⟨_, inner, rfl⟩ := Option.map_eq_some_iff.mp found
    obtain ⟨behind, close⟩ := ih inner
    rw [drop_drop] at close
    refine ⟨behind, ?_⟩
    rw [← Nat.add_assoc, drop_succ_cons, Nat.add_comm]
    exact close

theorem reads_codeToClose :
    Reads source i codeToClose fun code j => source.drop i = code.toList ++ '\x7d' :: source.drop j := by
  refine reads_rest.bind fun cs j found => ?_
  obtain ⟨rfl, rfl⟩ := found
  split
  · exact reads_failure
  · rename_i n ends
    obtain ⟨_, close⟩ := drop_lengthToClose? ends
    refine (reads_takeChars n).bind fun code k taken => ?_
    refine (reads_discard ((reads_takeChars 1).mono fun text l one => one.1)).bind fun _ l reached => reads_pure ?_
    have closed : source.drop k = '\x7d' :: source.drop l := by
      rw [reached, ← drop_drop, taken.1, ← drop_drop, close]
      rfl
    rw [← closed, taken.1, taken.2, ← drop_drop, take_append_drop]

end Parser

def Span.Opens (source : List Char) (span : Span) (shown : List Char) : Prop :=
  ∃ k, span.start = placeAt source k ∧ shown <+: source.drop k

section Grammar
open Template.Parser

def braced (code : String) : List Char := '\x7b' :: (code.toList ++ ['\x7d'])

/-- What may stand between the name of an attribute and its value. -/
def IsGap (gap : List Char) : Prop := ∀ c ∈ gap, isSpace c ∨ c = '='

/-- An attribute stands where its span says. Spreads are never refused, so that nothing is said of them. -/
def WrittenAttribute.Placed (source : List Char) : WrittenAttribute → Prop
  | .flag name span => span.Opens source name.toList
  | .quoted name _ span => span.Opens source name.toList
  | .braced name code span => ∃ gap, IsGap gap ∧ span.Opens source (name.toList ++ gap ++ Template.braced code)
  | .spread _ _ => True

mutual

def Written.Placed (source : List Char) : Written → Prop
  | .text _ _ => True
  | .expression code span => span.Opens source (braced code)
  | .fragment children _ => PlacedAll source children
  | .selfClosed tag attributes span => span.Opens source ('<' :: tag.toList) ∧ ∀ entry ∈ attributes, entry.Placed source
  | .element tag attributes children close closeSpan span =>
    span.Opens source ('<' :: tag.toList) ∧ (∀ entry ∈ attributes, entry.Placed source) ∧ PlacedAll source children ∧
      closeSpan.Opens source ('<' :: '/' :: close.toList)

def Written.PlacedAll (source : List Char) : List Written → Prop
  | [] => True
  | written :: rest => written.Placed source ∧ PlacedAll source rest

end

variable {source : List Char} {i : Nat}

theorem reads_attributeValue :
    Reads source i attributeValue fun make _ => ∀ name span k, span.start = placeAt source k →
      source.drop k = name.toList ++ source.drop i → (make name span).Placed source := by
  refine reads_spaces.bind fun _ a before => (reads_literal "=").bind fun _ b sign => reads_spaces.bind fun _ c after => ?_
  obtain ⟨first, first_eq, spaces⟩ := before
  obtain ⟨second, second_eq, spaces'⟩ := after
  refine Reads.orElse ?_ ?_
  · have any : Reads source c attributeString fun _ _ => True := by
      refine Reads.construct (reads_rest.bind fun cs d found => ?_) .attributeString
      split
      iterate 2
        exact (reads_literal _).bind fun _ _ _ => (reads_whileChars _).bind fun _ _ _ => (reads_literal _).bind fun _ _ _ =>
          reads_pure trivial
      exact reads_failure
    refine any.bind fun text d _ => reads_pure fun name span k starts named => ?_
    exact ⟨k, starts, named ▸ prefix_append _ _⟩
  · have code : Reads source c attributeExpression fun code d => source.drop c = braced code ++ source.drop d := by
      refine Reads.construct ((reads_literal _).bind fun _ d opened => ?_) .attributeExpression
      refine reads_codeToClose.mono fun code e closed => ?_
      rw [opened, closed]
      simp [braced]
    refine code.bind fun code d found => reads_pure fun name span k starts named => ?_
    refine ⟨first ++ '=' :: second, fun x mem => ?_, k, starts, source.drop d, ?_⟩
    · simp only [mem_append, mem_cons] at mem
      rcases mem with one | rfl | two
      · exact .inl (spaces x one)
      · exact .inr rfl
      · exact .inl (spaces' x two)
    · rw [named, first_eq, sign, second_eq, found]
      simp

theorem reads_attributeItem : Reads source i attributeItem fun entry _ => entry.Placed source := by
  have spread : ∀ i, Reads source i spreadAttribute fun entry _ => entry.Placed source := fun i => by
    refine Reads.construct ?_ .spreadAttribute
    exact reads_position.bind fun _ _ _ => (reads_literal _).bind fun _ _ _ => reads_spaces.bind fun _ _ _ =>
      (reads_literal _).bind fun _ _ _ => reads_codeToClose.bind fun _ _ _ => reads_get.bind fun _ _ _ => reads_pure trivial
  have named : ∀ i, Reads source i namedAttribute fun entry _ => entry.Placed source := fun i => by
    refine Reads.construct (reads_position.bind fun start a at_ => (reads_name.construct .attributeName).bind
      fun name b named => ?_) .namedAttribute
    obtain ⟨rfl, rfl⟩ := at_
    have flag : Reads source b (pure fun name span => .flag name span) fun (make : String → Span → WrittenAttribute) _ =>
        ∀ name span k, span.start = placeAt source k → source.drop k = name.toList ++ source.drop b →
          (make name span).Placed source :=
      reads_pure fun name span k starts named => ⟨k, starts, named ▸ prefix_append _ _⟩
    refine (reads_attributeValue.orElse flag).bind fun make c placed => ?_
    exact reads_get.bind fun cursor d _ => reads_pure (placed name _ a rfl named)
  exact reads_spaces.bind fun _ j _ => (spread j).orElse (named j)

theorem reads_closeTag :
    Reads source i closeTag fun closed _ => closed.2.Opens source ('<' :: '/' :: closed.1.toList) := by
  refine Reads.construct (reads_position.bind fun start a at_ => (reads_literal _).bind fun _ b opened => ?_) .closeTag
  obtain ⟨rfl, rfl⟩ := at_
  refine (reads_name.construct .tagName).bind fun tag c named => reads_spaces.bind fun _ d _ => ?_
  refine (reads_literal _).bind fun _ e _ => reads_get.bind fun cursor f _ => reads_pure ⟨a, rfl, ?_⟩
  rw [opened, named]
  exact prefix_append_right_inj ['<', '/'] |>.mpr (prefix_append _ _)

theorem reads_node {fuel : Nat}
    (inner : ∀ i, Reads source i (nodes fuel) fun roots _ => Written.PlacedAll source roots) :
    Reads source i (node (nodes fuel)) fun written _ => written.Placed source := by
  have text : Reads source i text fun written _ => written.Placed source := by
    refine Reads.construct (reads_position.bind fun _ _ _ => (reads_whileChars _).bind fun raw _ _ => ?_) .text
    split
    · exact reads_failure
    · exact reads_get.bind fun _ _ _ => reads_pure trivial
  have expression : Reads source i expression fun written _ => written.Placed source := by
    refine Reads.construct (reads_position.bind fun start a at_ => (reads_literal _).bind fun _ b opened => ?_) .expression
    obtain ⟨rfl, rfl⟩ := at_
    refine reads_codeToClose.bind fun code c closed => reads_get.bind fun cursor d _ => ?_
    refine reads_pure ⟨a, rfl, source.drop c, ?_⟩
    rw [opened, closed]
    simp [braced]
  have fragment : Reads source i (fragment (nodes fuel)) fun written _ => written.Placed source := by
    refine Reads.construct (reads_position.bind fun _ _ _ => (reads_literal _).bind fun _ _ _ => ?_) (.fragment fuel)
    refine (inner _).bind fun children _ placed => (reads_literal _).bind fun _ _ _ => ?_
    exact reads_get.bind fun _ _ _ => reads_pure placed
  have element : Reads source i (element (nodes fuel)) fun written _ => written.Placed source := by
    refine Reads.construct (reads_position.bind fun start a at_ => (reads_literal _).bind fun _ b opened => ?_) (.element fuel)
    obtain ⟨rfl, rfl⟩ := at_
    refine (reads_name.construct .tagName).bind fun tag c named => reads_rest.bind fun _ d _ => ?_
    have opens : '<' :: tag.toList <+: source.drop a := by
      rw [opened, named]
      exact prefix_append_right_inj ['<'] |>.mpr (prefix_append _ _)
    refine (Reads.many (fun _ => reads_attributeItem) _).bind fun attrs e entries => reads_spaces.bind fun _ f _ => ?_
    refine Reads.orElse ?_ ?_
    · refine ((reads_literal _).construct .selfClose).bind fun _ _ _ => reads_get.bind fun _ _ _ => reads_pure ?_
      exact ⟨⟨a, rfl, opens⟩, entries⟩
    · refine (reads_literal _).bind fun _ g _ => (inner g).bind fun children h below => ?_
      refine reads_closeTag.bind fun closed _ ends => ?_
      exact reads_get.bind fun _ _ _ => reads_pure ⟨⟨a, rfl, opens⟩, entries, below, ends⟩
  exact fragment.orElse (element.orElse (expression.orElse text))

theorem reads_nodes (fuel : Nat) : Reads source i (nodes fuel) fun roots _ => Written.PlacedAll source roots := by
  induction fuel generalizing i with
  | zero => exact reads_pure trivial
  | succ _ ih =>
    refine Reads.orElse ?_ (reads_pure trivial)
    exact (reads_node fun _ => ih).bind fun first _ one => ih.bind fun others _ rest => reads_pure ⟨one, rest⟩

theorem reads_viewBlock : Reads source i viewBlock fun roots _ => Written.PlacedAll source roots := by
  refine Reads.construct ((reads_literal _).bind fun _ _ _ => ?_) .viewBlock
  refine Reads.bind (reads_rest.bind fun _ _ _ => reads_nodes _) fun roots _ placed => ?_
  exact (reads_literal _).bind fun _ _ _ => reads_pure placed

end Grammar

end LiveMarkup.Template
