import LiveMarkup.Proofs.LexedCode
import Mathlib

/-!
Templates that stand elsewhere. Apart from its spans, what is read from a text depends neither on the place at which the text
stands, nor on what was tried before it, nor on the fuel, as long as there is more of it than text. So a template behind code
in braces is read as if it stood alone.
-/

namespace LiveMarkup.Template
open Text List Grammar Nat

section Bare

def WrittenAttribute.bare : WrittenAttribute → WrittenAttribute
  | .flag name _ => .flag name default
  | .quoted name text _ => .quoted name text default
  | .braced name code _ => .braced name code default
  | .spread code _ => .spread code default

mutual

def Written.bare : Written → Written
  | .text raw _ => .text raw default
  | .expression code _ => .expression code default
  | .fragment children _ => .fragment (bareAll children) default
  | .selfClosed tag attributes _ => .selfClosed tag (attributes.map WrittenAttribute.bare) default
  | .element tag attributes children close _ _ =>
    .element tag (attributes.map WrittenAttribute.bare) (bareAll children) close default default

def Written.bareAll : List Written → List Written
  | [] => []
  | written :: rest => written.bare :: bareAll rest

end

variable {α β γ δ : Type}

/-- What an attempt has given or why it has failed, wherever that was. -/
def outcome (strip : α → β) : Except CompileError α → Except Cause β
  | .ok value => .ok (strip value)
  | .error error => .error error.cause

theorem Tree.bareAll_append (trees more : List Tree) : bareAll (trees ++ more) = bareAll trees ++ bareAll more := by
  simp [bareAll_eq_map]

theorem outcome_bind {strip : α → β} {strip' : γ → δ} {one two : Except CompileError α}
    {next next' : α → Except CompileError γ} (same : outcome strip one = outcome strip two)
    (then_ : ∀ a b, strip a = strip b → outcome strip' (next a) = outcome strip' (next' b)) :
    outcome strip' (one >>= next) = outcome strip' (two >>= next') := by
  match one, two with
  | .ok a, .ok b => exact then_ a b (Except.ok.inj same)
  | .error e, .error e' => exact congrArg Except.error (Except.error.inj same)
  | .ok _, .error _ => cases same
  | .error _, .ok _ => cases same

theorem WrittenAttribute.toAttribute_bare (attrs : List WrittenAttribute) : (attrs.map toAttribute).map Attribute.bare =
      ((attrs.map WrittenAttribute.bare).map toAttribute).map Attribute.bare := by
  simp only [map_map]
  refine map_congr_left fun entry _ => ?_
  cases entry <;> rfl

mutual

theorem Written.toTree?_bare (written : Written) :
    outcome (Option.map Tree.bare) written.toTree? = outcome (Option.map Tree.bare) written.bare.toTree? := by
  cases written with
  | text raw =>
    simp only [Written.bare, Written.toTree?]
    cases normalizeText raw.toList <;> rfl
  | expression code =>
    simp only [Written.bare, Written.toTree?]
    by_cases comment : isCommentOnly (trim code.toList) = true
    · simp only [if_pos comment]
    · simp only [if_neg comment]
      rfl
  | fragment children =>
    simp only [Written.bare, Written.toTree?]
    refine outcome_bind (toTrees_bareAll children) fun trees others same => ?_
    simp [outcome, pure, Except.pure, Tree.bare, same]
  | selfClosed _ attrs =>
    simp only [Written.bare, Written.toTree?]
    simp [outcome, pure, Except.pure, Tree.bare, WrittenAttribute.toAttribute_bare attrs]
  | element tag attrs children close =>
    simp only [Written.bare, Written.toTree?]
    refine outcome_bind (toTrees_bareAll children) fun trees others same => ?_
    by_cases closed : close = tag
    · simp [closed, outcome, pure, Except.pure, Tree.bare, same, WrittenAttribute.toAttribute_bare attrs]
    · simp only [if_neg closed]
      rfl

theorem toTrees_bareAll (written : List Written) :
    outcome Tree.bareAll (toTrees written) = outcome Tree.bareAll (toTrees (Written.bareAll written)) := by
  cases written with
  | nil => rfl
  | cons first rest =>
    simp only [Written.bareAll, toTrees]
    refine outcome_bind first.toTree?_bare fun tree tree' same => ?_
    refine outcome_bind (toTrees_bareAll rest) fun trees others alike => ?_
    have one : Tree.bareAll tree.toList = Tree.bareAll tree'.toList := by
      cases tree <;> cases tree' <;> simp_all [Tree.bareAll]
    simp [outcome, pure, Except.pure, Tree.bareAll_append, one, alike]

end

end Bare

namespace Parser

variable {α β γ δ : Type} {n k : Nat} {rest : List Char}

/-- Two results are the same: both are failures, or they go together and leave the same text, which is at least `k` characters
shorter than `rest`. -/
inductive Meet (rest : List Char) (k : Nat) (same : α → β → Prop) : Option (α × Cursor) → Option (β × Cursor) → Prop
  | failed : Meet rest k same none none
  | read {a : α} {b : β} {p q : Position} {left : List Char} (holds : same a b) (shorter : left.length + k ≤ rest.length) :
      Meet rest k same (some (a, ⟨p, left⟩)) (some (b, ⟨q, left⟩))

/-- Two parsers do the same with a text of fewer than `n` characters, wherever it stands and whatever was tried before, and
leave at least `k` characters fewer of it. -/
def Alike (n k : Nat) (same : α → β → Prop) (one : Parser α) (two : Parser β) : Prop :=
  ∀ p q rest attempts others, rest.length < n → Meet rest k same (one ⟨p, rest⟩ attempts).1 (two ⟨q, rest⟩ others).1

section Logic

variable {same : α → β → Prop} {alike : γ → δ → Prop} {one : Parser α} {two : Parser β}
variable {next' : β → Parser δ} {next : α → Parser γ}
variable {x : Option (α × Cursor)} {y : Option (β × Cursor)} {j : Nat} {same' : α → β → Prop} {k' : Nat}

theorem Meet.mono (met : Meet rest k same x y) (less : k' ≤ k)
    (weaker : ∀ a b, same a b → same' a b) : Meet rest k' same' x y := by
  cases met with
  | failed => exact .failed
  | read holds => exact .read (weaker _ _ holds) (by omega)

theorem Meet.within {more : List Char} (met : Meet rest j same x y) (shorter : rest.length + k ≤ more.length) :
    Meet more (k + j) same x y := by
  cases met with
  | failed => exact .failed
  | read holds => exact .read holds (by omega)

theorem Alike.mono {n' : Nat} (both : Alike n k same one two) (fewer : n' ≤ n) (less : k' ≤ k)
    (weaker : ∀ a b, same a b → same' a b) : Alike n' k' same' one two :=
  fun p q rest attempts others short => (both p q rest attempts others (by omega)).mono less weaker

theorem alike_pure {a : α} {b : β} (holds : same a b) : Alike n 0 same (pure a) (pure b) :=
  fun _ _ _ _ _ _ => .read holds (le_rfl)

theorem alike_failure : Alike n k same (failure : Parser α) (failure : Parser β) := fun _ _ _ _ _ _ => .failed

theorem Alike.bind_of (first : Alike n k same one two) (then_ : ∀ a b, same a b → Alike (n - k) j alike (next a) (next' b)) :
    Alike n (k + j) alike (one >>= next) (two >>= next') := by
  intro p q rest attempts others short
  have both := first p q rest attempts others short
  rw [bind_apply, bind_apply]
  rcases found : (one ⟨p, rest⟩ attempts : Option (α × Cursor) × Attempts) with ⟨result, later⟩
  rcases found' : (two ⟨q, rest⟩ others : Option (β × Cursor) × Attempts) with ⟨result', later'⟩
  rw [found, found'] at both
  cases both with
  | failed => exact .failed
  | read holds shorter =>
    exact (then_ _ _ holds _ _ _ later later' (by omega)).within shorter

theorem Alike.bind (first : Alike n 0 same one two) (then_ : ∀ a b, same a b → Alike n k alike (next a) (next' b)) :
    Alike n k alike (one >>= next) (two >>= next') := by
  have both := Alike.bind_of first then_
  rwa [zero_add] at both

theorem Alike.bind_shorter (first : Alike (n + 1) 1 same one two)
    (then_ : ∀ a b, same a b → Alike n 0 alike (next a) (next' b)) :
    Alike (n + 1) 1 alike (one >>= next) (two >>= next') := Alike.bind_of first then_

theorem Alike.orElse {one' : Parser α} {two' : Parser β} (first : Alike n k same one two)
    (second : Alike n k same one' two') : Alike n k same (one <|> one') (two <|> two') := by
  intro p q rest attempts others short
  have both := first p q rest attempts others short
  rw [orElse_apply, orElse_apply]
  rcases found : (one ⟨p, rest⟩ attempts : Option (α × Cursor) × Attempts) with ⟨result, later⟩
  rcases found' : (two ⟨q, rest⟩ others : Option (β × Cursor) × Attempts) with ⟨result', later'⟩
  rw [found, found'] at both
  cases both with
  | failed => exact second p q rest later later' short
  | read holds shorter => exact .read holds shorter

theorem Alike.construct (both : Alike n k same one two) (name : Construct) :
    Alike n k same (construct name one) (construct name two) := by
  intro p q rest attempts others short
  rw [construct_result, construct_result]
  exact both p q rest attempts others short

theorem Alike.many (both : Alike n 0 same one two) (fuel : Nat) :
    Alike n 0 (Forall₂ same) (many one fuel) (many two fuel) := by
  induction fuel with
  | zero => exact alike_pure .nil
  | succ _ ih =>
    refine Alike.orElse ?_ (alike_pure .nil)
    exact both.bind fun a b holds => ih.bind fun as bs each => alike_pure (.cons holds each)

end Logic

section Primitives

variable {same : α → β → Prop}

theorem alike_get : Alike n 0 (fun c d => c.rest = d.rest) get get := fun _ _ _ _ _ _ => .read rfl (le_rfl)

theorem alike_position : Alike n 0 (fun _ _ => True) position position :=
  alike_get.bind fun _ _ _ => alike_pure trivial

theorem alike_rest : Alike n 0 Eq Parser.rest Parser.rest := alike_get.bind fun _ _ same => alike_pure same

theorem alike_takeChars (m : Nat) : Alike n 0 Eq (takeChars m) (takeChars m) := fun _ _ rest _ _ _ =>
  Meet.read rfl (by simp)

theorem Alike.discard {one : Parser α} {two : Parser β} (both : Alike n k same one two) :
    Alike n k Eq (discard one) (discard two) := by
  rw [discard_eq_bind, discard_eq_bind]
  exact Alike.bind_of both fun _ _ _ => alike_pure rfl

theorem alike_literal (text : String) : Alike n 0 Eq (literal text) (literal text) := by
  refine alike_rest.bind fun cs _ same => ?_
  subst same
  split
  · exact (alike_takeChars _).discard
  · exact alike_failure

theorem alike_mark {text : String} (solid : text ≠ "") : Alike n 1 Eq (literal text) (literal text) := by
  intro p q rest attempts others _
  have run (p attempts) : (literal text ⟨p, rest⟩ attempts).1 =
      if text.toList.isPrefixOf rest then some ((), Cursor.skip ⟨p, rest⟩ text.toList.length) else none := by
    show ((if text.toList.isPrefixOf rest then discard (takeChars _) else failure : Parser Unit) ⟨p, rest⟩ attempts).1 = _
    split
    · rw [discard_eq_bind]
      rfl
    · rfl
  rw [run, run]
  split
  · rename_i starts
    have fits := ( isPrefixOf_iff_prefix.mp starts).length_le
    have some : 0 < text.toList.length := length_pos_iff.mpr fun empty => solid (String.toList_eq_nil_iff.mp empty)
    have shrunk : (rest.drop text.toList.length).length + 1 ≤ rest.length := by
      rw [length_drop]
      omega
    exact .read rfl shrunk
  · exact .failed

theorem alike_whileChars (good : Char → Bool) : Alike n 0 Eq (whileChars good) (whileChars good) :=
  alike_rest.bind fun _ _ same => same ▸ alike_takeChars _

theorem Alike.bind_solid {good : Char → Bool} {next : String → Parser α} {next' : String → Parser β}
    (then_ : ∀ raw, Alike n 0 same (next raw) (next' raw)) :
    Alike (n + 1) 1 same (whileChars good >>= fun raw => if raw.isEmpty then failure else next raw)
      (whileChars good >>= fun raw => if raw.isEmpty then failure else next' raw) := by
  intro p q rest attempts others short
  have run (p attempts) : whileChars good ⟨p, rest⟩ attempts = (some (String.ofList (rest.take (rest.takeWhile good).length),
      Cursor.skip ⟨p, rest⟩ (rest.takeWhile good).length), attempts) := rfl
  rw [bind_apply, bind_apply, run, run]
  dsimp only
  have fits := (takeWhile_sublist good (l := rest)).length_le
  cases solid : (rest.takeWhile good).length with
  | zero => exact .failed
  | succ m =>
    rw [solid] at fits
    have some : (String.ofList (rest.take (m + 1))).isEmpty = false := by
      cases rest with
      | nil => cases fits
      | cons => simp
    have shrunk : (rest.drop (m + 1)).length + 1 ≤ rest.length := by
      rw [length_drop]
      omega
    rw [if_neg (by simp [some]), if_neg (by simp [some])]
    have left : (rest.drop (m + 1)).length < n := by omega
    exact (then_ _ _ _ _ attempts others left).within shrunk

theorem alike_spaces : Alike n 0 Eq spaces spaces := (alike_whileChars _).discard

theorem alike_name : Alike n 0 Eq name name := by
  refine alike_rest.bind fun cs _ same => ?_
  subst same
  split
  · split
    · exact alike_whileChars _
    · exact alike_failure
  · exact alike_failure

theorem alike_codeToClose : Alike n 0 Eq codeToClose codeToClose := by
  refine alike_rest.bind fun cs _ same => ?_
  subst same
  split
  · exact alike_failure
  · refine (alike_takeChars _).bind fun code _ same => (alike_takeChars 1).discard.bind fun _ _ _ => ?_
    exact alike_pure same

end Primitives
end Parser

section Grammar
open Template.Parser

variable {n : Nat}

def AlikeMakes (make other : String → Span → WrittenAttribute) : Prop :=
  ∀ name span span', (make name span).bare = (other name span').bare

theorem alike_attributeString : Alike n 0 Eq attributeString attributeString := by
  refine Alike.construct (alike_rest.bind fun cs _ same => ?_) _
  subst same
  split
  iterate 2
    exact (alike_literal _).bind fun _ _ _ => (alike_whileChars _).bind fun _ _ same =>
      (alike_literal _).bind fun _ _ _ => alike_pure same
  exact alike_failure

theorem alike_attributeValue : Alike n 0 AlikeMakes attributeValue attributeValue := by
  refine alike_spaces.bind fun _ _ _ => (alike_literal _).bind fun _ _ _ => alike_spaces.bind fun _ _ _ => ?_
  refine Alike.orElse (alike_attributeString.bind fun text _ same => ?_) ?_
  · exact alike_pure fun name span span' => by rw [same]; rfl
  · have code : Alike n 0 Eq attributeExpression attributeExpression :=
      Alike.construct ((alike_literal _).bind fun _ _ _ => alike_codeToClose) _
    exact code.bind fun code _ same => alike_pure fun name span span' => by rw [same]; rfl

theorem alike_attributeItem : Alike n 0 (fun a b => a.bare = b.bare) attributeItem attributeItem := by
  have spread : Alike n 0 (fun a b => a.bare = b.bare) spreadAttribute spreadAttribute := by
    refine Alike.construct (alike_position.bind fun _ _ _ => (alike_literal _).bind fun _ _ _ => ?_) _
    refine alike_spaces.bind fun _ _ _ => (alike_literal _).bind fun _ _ _ => alike_codeToClose.bind fun _ _ same => ?_
    exact alike_get.bind fun _ _ _ => alike_pure (by rw [same]; rfl)
  have named : Alike n 0 (fun a b => a.bare = b.bare) namedAttribute namedAttribute := by
    refine Alike.construct (alike_position.bind fun _ _ _ => (alike_name.construct _).bind fun name _ same => ?_) _
    subst same
    have flag : Alike n 0 AlikeMakes (pure fun name span => .flag name span) (pure fun name span => .flag name span) :=
      alike_pure fun _ _ _ => rfl
    refine (alike_attributeValue.orElse flag).bind fun make other makes => ?_
    exact alike_get.bind fun _ _ _ => alike_pure (makes _ _ _)
  exact alike_spaces.bind fun _ _ _ => spread.orElse named

theorem alike_closeTag : Alike n 0 (fun a b => a.1 = b.1) closeTag closeTag := by
  refine Alike.construct (alike_position.bind fun _ _ _ => (alike_literal _).bind fun _ _ _ => ?_) _
  refine (alike_name.construct _).bind fun tag _ same => alike_spaces.bind fun _ _ _ => ?_
  exact (alike_literal _).bind fun _ _ _ => alike_get.bind fun _ _ _ => alike_pure same

theorem alike_text : Alike (n + 1) 1 (fun a b => a.bare = b.bare) text text := by
  refine Alike.construct (alike_position.bind fun _ _ _ => Alike.bind_solid fun raw => ?_) _
  exact alike_get.bind fun _ _ _ => alike_pure rfl

theorem alike_node {content content' : Parser (List Written)}
    (inner : Alike n 0 (fun a b => Written.bareAll a = Written.bareAll b) content content') :
    Alike (n + 1) 1 (fun a b => a.bare = b.bare) (node content) (node content') := by
  have fragment : Alike (n + 1) 1 (fun a b => a.bare = b.bare) (fragment content) (fragment content') := by
    refine Alike.construct (alike_position.bind fun _ _ _ => (alike_mark (by decide)).bind_shorter fun _ _ _ => ?_) _
    refine inner.bind fun children _ same => (alike_literal _).bind fun _ _ _ => alike_get.bind fun _ _ _ => ?_
    exact alike_pure (by simp [Written.bare, same])
  have element : Alike (n + 1) 1 (fun a b => a.bare = b.bare) (element content) (element content') := by
    refine Alike.construct (alike_position.bind fun _ _ _ => (alike_mark (by decide)).bind_shorter fun _ _ _ => ?_) _
    refine (alike_name.construct _).bind fun tag _ same => alike_rest.bind fun cs _ left => ?_
    subst same left
    refine (alike_attributeItem.many _).bind fun attrs others each => alike_spaces.bind fun _ _ _ => ?_
    have attributes_eq : attrs.map WrittenAttribute.bare = others.map WrittenAttribute.bare := by
      rw [← forall₂_eq_eq_eq, forall₂_map_left_iff, forall₂_map_right_iff]
      exact each
    refine Alike.orElse ?_ ?_
    · exact ((alike_literal _).construct _).bind fun _ _ _ => alike_get.bind fun _ _ _ =>
        alike_pure (by simp [Written.bare, attributes_eq])
    · refine (alike_literal _).bind fun _ _ _ => inner.bind fun children _ same => ?_
      refine alike_closeTag.bind fun closed _ closes => alike_get.bind fun _ _ _ => alike_pure ?_
      simp [Written.bare, attributes_eq, same, closes]
  have expression : Alike (n + 1) 1 (fun a b => a.bare = b.bare) expression expression := by
    refine Alike.construct (alike_position.bind fun _ _ _ => (alike_mark (by decide)).bind_shorter fun _ _ _ => ?_) _
    exact alike_codeToClose.bind fun code _ same => alike_get.bind fun _ _ _ => alike_pure (by simp [Written.bare, same])
  exact fragment.orElse (element.orElse (expression.orElse alike_text))

theorem alike_nodes {fuel more : Nat} (enough : n ≤ fuel) (enough' : n ≤ more) :
    Alike n 0 (fun a b => Written.bareAll a = Written.bareAll b) (nodes fuel) (nodes more) := by
  -- the induction is on a bound of the text's length: behind a node the text is shorter, as the fuel is less
  induction n generalizing fuel more with
  | zero => exact fun _ _ _ _ _ short => absurd short (Nat.not_lt_zero _)
  | succ n ih =>
    obtain ⟨fuel, rfl⟩ := Nat.exists_eq_add_of_le' ((Nat.le_add_left 1 n).trans enough)
    obtain ⟨more, rfl⟩ := Nat.exists_eq_add_of_le' ((Nat.le_add_left 1 n).trans enough')
    have inner : Alike n 0 (fun a b => Written.bareAll a = Written.bareAll b) (nodes fuel) (nodes more) :=
      ih (by omega) (by omega)
    refine Alike.orElse ?_ (alike_pure rfl)
    refine Alike.mono (k := 1) (Alike.bind_shorter (alike_node inner) fun first _ same => ?_) (le_rfl) (Nat.zero_le _)
      fun _ _ => id
    exact inner.bind fun others _ alike => alike_pure (by simp [Written.bareAll, same, alike])

end Grammar

section Expression
open Template.Parser

variable {code : String} {tokens : List CodeToken} {further : List Char} {fuel : Nat}

theorem closed_of_tokens (are : AreTokens tokens) (clear : AreClear tokens ('\x7d' :: further))
    (balanced : openBehind? 0 tokens = some 0) : Code.IsClosed (textOf tokens) further := by
  rw [Code.IsClosed, lengthToClose?_tokens are clear balanced, Code.lengthToClose?.eq_def]
  simp

theorem nodes_ne_none (fuel : Nat) (cursor : Cursor) (attempts : Attempts) : (nodes fuel cursor attempts).1 ≠ none := by
  cases fuel with
  | zero => exact Option.some_ne_none _
  | succ =>
    rw [nodes, orElse_apply]
    split <;> exact Option.some_ne_none _

theorem nodes_cons {cursor behind : Cursor} {attempts : Attempts} {written : Written}
    (taken : (node (nodes fuel) cursor attempts).1 = some (written, behind)) :
    ∃ later, (nodes (fuel + 1) cursor attempts).1 =
      (nodes fuel behind later).1.map fun result => (written :: result.1, result.2) := by
  rw [nodes, orElse_apply, bind_apply]
  rcases found : (node (nodes fuel) cursor attempts : Option (Written × Cursor) × Attempts) with ⟨result, later⟩
  rw [found] at taken
  obtain rfl : result = some (written, behind) := taken
  refine ⟨later, ?_⟩
  dsimp only
  rw [bind_apply]
  have some := nodes_ne_none fuel behind later
  rcases found : (nodes fuel behind later : Option (List Written × Cursor) × Attempts) with ⟨_ | result, last⟩
  · exact absurd (congrArg Prod.fst found) some
  · rfl

theorem nodes_behind_code (closed : Code.IsClosed code.toList further) (enough : (braced code ++ further).length < fuel)
    (p : Position) (attempts : Attempts) :
    ∃ others alone p' q left, (nodes fuel ⟨p, braced code ++ further⟩ attempts).1 =
        some (.expression code (spanOf p (braced code)) :: others, ⟨p', left⟩) ∧
      (content ⟨{}, further⟩ {}).1 = some (alone, ⟨q, left⟩) ∧
      Written.bareAll others = Written.bareAll alone := by
  obtain ⟨fuel, rfl⟩ := exists_eq_succ_of_ne_zero (ne_zero_of_lt enough)
  have taken : Takes (node (nodes fuel)) p (braced code) further (.expression code (spanOf p (braced code))) :=
    takes_nodeExpression closed
  obtain ⟨later, run⟩ := nodes_cons (taken attempts)
  have fits : further.length + 1 ≤ fuel := by
    simp only [braced, length_append, length_cons] at enough
    omega
  have both := alike_nodes fits (le_rfl) (p.pastAll (braced code)) {} further later {} (lt_succ_self _)
  obtain ⟨⟨others, ⟨p', left⟩⟩, found⟩ := Option.ne_none_iff_exists'.mp
    (nodes_ne_none fuel ⟨p.pastAll (braced code), further⟩ later)
  obtain ⟨⟨alone, ⟨q, _⟩⟩, found'⟩ := Option.ne_none_iff_exists'.mp (nodes_ne_none (further.length + 1) ⟨{}, further⟩ {})
  rw [found, found'] at both
  cases both with
  | read same => exact ⟨others, alone, p', q, left, by rw [run, found]; rfl, found', same⟩

theorem toTree?_expression (are : AreTokens tokens) (tidy : ∀ token ∈ tokens.takeWhile (·.isRemark), token.IsTidy)
    (text : code.toList = textOf tokens) (span : Span) :
    (Written.expression code span).toTree? =
      .ok (if tokens.all (·.isRemark) then none else some (.expression (trimCode code) span)) := by
  rw [Written.toTree?, isCommentOnly_trim, text, isCommentOnly_textOf are tidy]
  rfl

/-- Code in braces is read as one expression, or left out if it is made of comments alone, and the text behind it is read as if
it stood alone. This holds of all code whose braces match between its tokens, where these are clear and its remarks tidy. -/
theorem expression_read_by_tokens (are : AreTokens tokens) (text : code.toList = textOf tokens)
    (balanced : openBehind? 0 tokens = some 0) (clear : AreClear tokens ('\x7d' :: further))
    (tidy : ∀ token ∈ tokens.takeWhile (·.isRemark), token.IsTidy) {fuel : Nat}
    (enough : (braced code ++ further).length < fuel) (p : Position) (attempts : Attempts) :
    ∃ others alone p' q left, (Grammar.nodes fuel ⟨p, braced code ++ further⟩ attempts).1 =
        some (.expression code (spanOf p (braced code)) :: others, ⟨p', left⟩) ∧
      (Written.expression code (spanOf p (braced code))).toTree? =
        .ok (if tokens.all (·.isRemark) then none else some (.expression (trimCode code) (spanOf p (braced code)))) ∧
      (Grammar.content ⟨{}, further⟩ {}).1 = some (alone, ⟨q, left⟩) ∧ Written.bareAll others = Written.bareAll alone ∧
      outcome Tree.bareAll (toTrees others) = outcome Tree.bareAll (toTrees alone) := by
  have closed : Code.IsClosed code.toList further := text ▸ closed_of_tokens are clear balanced
  obtain ⟨others, alone, p', q, left, read, stands, same⟩ := nodes_behind_code closed enough p attempts
  refine ⟨others, alone, p', q, left, read, toTree?_expression are tidy text _, stands, same, ?_⟩
  rw [toTrees_bareAll others, same, ← toTrees_bareAll alone]

def blockCode : String := "\x7b\"\x7d\"\x7d/* it */"

def blockTokens : List CodeToken :=
  [⟨.mark, ['\x7b']⟩, ⟨.literal, ['"', '\x7d', '"']⟩, ⟨.mark, ['\x7d']⟩, ⟨.comment, "/* it */".toList⟩]

theorem expression_read_by_tokens_block :
    AreTokens blockTokens ∧ blockCode.toList = textOf blockTokens ∧ openBehind? 0 blockTokens = some 0 ∧
      AreClear blockTokens ('\x7d' :: "<b/>".toList) ∧ (∀ token ∈ blockTokens.takeWhile (·.isRemark), token.IsTidy) ∧
      (braced blockCode ++ "<b/>".toList).length < 20 ∧
      ∃ others alone p' q left, (Grammar.nodes 20 ⟨{}, braced blockCode ++ "<b/>".toList⟩ {}).1 =
          some (.expression blockCode (spanOf {} (braced blockCode)) :: others, ⟨p', left⟩) ∧
        (Written.expression blockCode (spanOf {} (braced blockCode))).toTree? =
          .ok (some (.expression (trimCode blockCode) (spanOf {} (braced blockCode)))) ∧
        (Grammar.content ⟨{}, "<b/>".toList⟩ {}).1 = some (alone, ⟨q, left⟩) ∧
        Written.bareAll others = Written.bareAll alone ∧
        outcome Tree.bareAll (toTrees others) = outcome Tree.bareAll (toTrees alone) := by
  have plain : IsStringBody ['\x7d'] := .plain (by decide) (by decide) .nil
  have ended : Expression.Lexer.blockComment? 0 " it */".toList = some [] := rfl
  have are : AreTokens blockTokens :=
    ⟨.mark rfl rfl (by decide) (by decide), .string plain, .mark rfl rfl (by decide) (by decide), .blockComment ended, trivial⟩
  have clear : AreClear blockTokens ('\x7d' :: "<b/>".toList) :=
    ⟨trivial, fun quotes => absurd quotes (by decide), trivial, .of_plain (by simp) _, trivial⟩
  have enough : (braced blockCode ++ "<b/>".toList).length < 20 := by decide
  exact ⟨are, rfl, rfl, clear, by simp [blockTokens, CodeToken.isRemark], enough,
    expression_read_by_tokens are rfl rfl clear (by simp [blockTokens, CodeToken.isRemark]) enough {} {}⟩

/-- The tokens of `['\'','{']` in Rust: a list of a quote and a brace. -/
def quoteTokens : List CodeToken :=
  [⟨.mark, ['[']⟩, ⟨.literal, ['\'', '\\', '\'', '\'']⟩, ⟨.mark, [',']⟩, ⟨.literal, ['\'', '\x7b', '\'']⟩, ⟨.mark, [']']⟩]

/-- The last quote of `'\''` is paired with the next one, so that the brace behind them counts and the template is refused. -/
theorem escaped_quote_unclosed : AreTokens quoteTokens ∧ openBehind? 0 quoteTokens = some 0 ∧
    textOf quoteTokens = "['\\'','\x7b']".toList ∧
    parse "<p>\x7b['\\'','\x7b']\x7d</p>" =
      .error ⟨.expected [.fragment, .element, .expression, .text, .closeTag], 1, 4⟩ := by
  have alone : '\'' ∉ ([] : List Char) := by simp
  refine ⟨⟨.mark rfl rfl (by decide) (by decide), .escape alone fun _ => rfl,
    .mark rfl rfl (by decide) (by decide), .char (by decide) (by decide), .mark rfl rfl (by decide) (by decide), trivial⟩,
    rfl, rfl, ?_⟩
  cbv

end Expression

end LiveMarkup.Template
