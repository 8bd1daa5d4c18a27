import LiveMarkup.Codegen.Client
import LiveMarkup.Codegen.Server
import LiveMarkup.Live.View
import Mathlib.Data.List.DropRight
import Mathlib.Tactic.IntervalCases

/-!
Literals as children. Where a literal stands below an element its text is part of the markup, as it was told from the
spelling; where it is a root by itself its code is run, and what is shown is the text of the value. The two texts are the
same unless the literal is a zero with a minus or a number with a point or an exponent that is not written as it is shown.
-/

namespace LiveMarkup.Number
open List Nat

section Digits

variable {places n : Nat}

theorem head_toDigits (first : (Nat.toDigits 10 n).head? = some '0') : n = 0 := by
  induction n using Nat.strong_induction_on with
  | _ n ih =>
    by_cases small : n < 10
    · rw [Nat.toDigits_of_lt_base small] at first
      have same : n.digitChar = '0' := Option.some.inj first
      interval_cases n <;> first | rfl | cases same
    · rw [Nat.toDigits_of_base_le (by decide) (Nat.le_of_not_lt small),
        head?_append_of_ne_nil _ Nat.toDigits_ne_nil] at first
      have none := ih (n / 10) (by omega) first
      omega

/-- How a number that is not negative is shown: in digits, with a point only in front of a last digit that is not zero, and
with a zero in front of the point only alone. -/
def Plain (cs : List Char) : Prop :=
  (cs ≠ [] ∧ ∀ c ∈ cs, c.isDigit) ∨ ∃ whole fraction last, cs = whole ++ '.' :: (fraction ++ [last]) ∧ whole ≠ [] ∧
    (∀ c ∈ whole ++ fraction ++ [last], c.isDigit) ∧ (whole.head? = some '0' → whole = ['0']) ∧ last ≠ '0'

def padded (n places : Nat) : List Char := replicate (places + 1 - (Nat.toDigits 10 n).length) '0' ++ Nat.toDigits 10 n

theorem isDigit_of_mem_padded {c : Char} (mem : c ∈ padded n places) : c.isDigit := by
  rcases mem_append.1 mem with zero | digit
  · exact (eq_of_mem_replicate zero) ▸ rfl
  · exact isDigit_of_mem_toDigits (by decide) (by decide) digit

theorem lt_length_padded (n places : Nat) : places < (padded n places).length := by
  simp only [padded, length_append, length_replicate]
  omega

theorem take_padded_of_head (pointed : 0 < places)
    (zero : ((padded n places).take ((padded n places).length - places)).head? = some '0') :
    (padded n places).take ((padded n places).length - places) = ['0'] := by
  have long := lt_length_padded n places
  by_cases enough : (Nat.toDigits 10 n).length ≤ places
  · have one : (padded n places).length - places = 1 := by
      simp only [padded, length_append, length_replicate]
      omega
    rw [one] at zero ⊢
    cases digits : padded n places with
    | nil => simp [digits] at long
    | cons => simp_all
  · have unpadded : padded n places = Nat.toDigits 10 n := by
      rw [padded, Nat.sub_eq_zero_of_le (by omega)]
      rfl
    rw [unpadded, head?_take, if_neg (by rw [unpadded] at long; omega)] at zero
    have none := head_toDigits zero
    subst none
    exact absurd (show 1 ≤ places from pointed) enough

theorem plain_pointed (whole fraction : List Char) (filled : whole ≠ []) (digits : ∀ c ∈ whole ++ fraction, c.isDigit)
    (alone : whole.head? = some '0' → whole = ['0']) :
    Plain (if (fraction.rdropWhile (· == '0')).isEmpty then whole else whole ++ '.' :: fraction.rdropWhile (· == '0')) := by
  split
  · exact .inl ⟨filled, fun c mem => digits c (mem_append_left _ mem)⟩
  · rename_i more
    have left : fraction.rdropWhile (· == '0') ≠ [] := by simpa using more
    have parts := dropLast_append_getLast left
    refine .inr ⟨whole, _, _, by rw [parts], filled, fun c mem => digits c ?_, alone, ?_⟩
    · rw [append_assoc, parts] at mem
      exact (mem_append.1 mem).elim (mem_append_left _)
        fun fractional => mem_append_right _ (( rdropWhile_prefix _ _).subset fractional)
    · simpa using rdropWhile_last_not _ _ left

theorem plain_positional (decimal : Decimal) : Plain decimal.positional.toList := by
  obtain ⟨n, k | k⟩ := decimal
  · refine .inl ⟨by simp [Decimal.positional, toDigits_ne_nil], fun c mem => ?_⟩
    simp only [Decimal.positional, String.toList_ofList, mem_append] at mem
    rcases mem with digit | zero
    · exact isDigit_of_mem_toDigits (by decide) (by decide) digit
    · exact (eq_of_mem_replicate zero) ▸ rfl
  · have long := lt_length_padded n (k + 1)
    have plain := plain_pointed ((padded n (k + 1)).take ((padded n (k + 1)).length - (k + 1)))
      ((padded n (k + 1)).drop ((padded n (k + 1)).length - (k + 1)))
      (ne_nil_of_length_pos (by rw [length_take]; omega))
      (fun c mem => isDigit_of_mem_padded (by rwa [take_append_drop] at mem)) (take_padded_of_head (succ_pos k))
    have written : (Decimal.positional ⟨n, .negSucc k⟩).toList = _ := apply_ite String.toList _ _ _
    rw [written, String.toList_ofList, String.toList_ofList]
    exact plain

theorem plain_text (format : Format) (negative : Bool) (mantissa : Nat) (exponent : Int) :
    ∃ cs, (format.text (.finite negative mantissa exponent)).toList = (if negative then ['-'] else []) ++ cs ∧ Plain cs := by
  refine ⟨(if mantissa = 0 then "0" else (format.shortest mantissa exponent).positional).toList, ?_, ?_⟩
  · cases negative <;> simp [Format.text]
  · split
    · have zero : Plain ['0'] := .inl ⟨cons_ne_nil _ _, fun c mem => mem_singleton.1 mem ▸ rfl⟩
      exact zero
    · exact plain_positional _

end Digits

end LiveMarkup.Number

namespace LiveMarkup.Blueprint
open Expression Live Number

/-- The kinds of integers by their suffixes; without one an integer is of the first kind. -/
def integerSuffixes : List (String × IntegerKind) :=
  [("", ⟨true, .bits32⟩), ("i8", ⟨true, .bits8⟩), ("i16", ⟨true, .bits16⟩), ("i32", ⟨true, .bits32⟩), ("i64", ⟨true, .bits64⟩),
    ("i128", ⟨true, .bits128⟩), ("isize", ⟨true, .native⟩), ("u8", ⟨false, .bits8⟩), ("u16", ⟨false, .bits16⟩),
    ("u32", ⟨false, .bits32⟩), ("u64", ⟨false, .bits64⟩), ("u128", ⟨false, .bits128⟩), ("usize", ⟨false, .native⟩)]

def floatSuffixes : List (String × FloatKind) := [("", .double), ("f32", .single), ("f64", .double)]

/-- An integer, if it is of its kind and the minus goes with that. -/
def integerDatum? (kind : IntegerKind) (negative : Bool) (value : Nat) : Option Datum :=
  let n : Int := if negative then -value else value
  if kind.holds n && (kind.signed || !negative) then some (.integer kind n) else none

/-- The floating point number that is nearest to a decimal, unless that is too large or its kind unknown. -/
def floatDatum? (suffix : String) (negative : Bool) (read : Option Decimal) : Option Datum := do
  let kind ← floatSuffixes.lookup suffix
  match kind.format.ofDecimal (← read) with
  | .finite _ mantissa exponent => some (.float kind (.finite negative mantissa exponent))
  | _ => none

/-- The value of a literal, with a minus in front of it or without. There is none where the suffix is unknown, the number
does not fit its kind or the minus does not go with it. -/
def literalDatum? (negative : Bool) : Literal → Option Datum
  | .text data => if negative then none else some (.text .fixed data)
  | .char value => if negative then none else some (.char value)
  | .bool value => if negative then none else some (.bool value)
  | .int value suffix =>
    match integerSuffixes.lookup suffix with
    | some kind => integerDatum? kind negative value
    | none => floatDatum? suffix negative (some ⟨value, 0⟩)
  | .float digits suffix _ => floatDatum? suffix negative (decimal? digits.toList)
  | .bytes => none

def datumOf : Expr → Option Datum
  | .literal value => literalDatum? false value
  | .negate (.literal value) => literalDatum? true value
  | .paren inner => datumOf inner
  | _ => none

def Constant.view {γ : Type} : Constant → View γ
  | .text data => .text data
  | .bool _ => .empty

/-- A number is written as it is shown: an integer unless it is a zero with a minus, and any other number if its text is. -/
def WrittenAsShown (shown : String) : Datum → Prop
  | .integer _ _ => shown ≠ "-0"
  | .float kind number => shown = kind.format.text number
  | _ => True

section Agreement

variable {γ : Type} {suffix : String} {negative : Bool} {read : Option Decimal} {datum : Datum} {constant : Constant}
variable {value : Literal} {shown : String} {e : Expr}

theorem toString_ne_zero_with_minus (n : Nat) : toString n ≠ "-0" := by
  intro same
  have digits : Nat.toDigits 10 n = ['-', '0'] := by
    rw [← Nat.toList_repr, ← Nat.toString_eq_repr, same]
    rfl
  have minus : '-'.isDigit := Nat.isDigit_of_mem_toDigits (by decide) (by decide) (digits ▸ List.mem_cons_self)
  exact absurd minus (by decide)

theorem toString_neg_iff (n : Nat) : toString (-(n : Int)) = "-" ++ toString n ↔ "-" ++ toString n ≠ "-0" := by
  cases n with
  | zero => decide
  | succ n =>
    refine iff_of_true rfl fun same => ?_
    have digits : Nat.toDigits 10 (n + 1) = ['0'] := by
      have chars := congrArg String.toList same
      rw [String.toList_append, Nat.toString_eq_repr, Nat.toList_repr] at chars
      exact List.tail_eq_of_cons_eq chars
    exact absurd (head_toDigits (digits ▸ rfl)) (Nat.succ_ne_zero n)

theorem of_integerDatum? {kind : IntegerKind} {value : Nat} (found : integerDatum? kind negative value = some datum) :
    datum = .integer kind (if negative then -value else value) :=
  (Option.some.inj (Option.ite_none_right_eq_some.1 found).2).symm

theorem of_floatDatum? (found : floatDatum? suffix negative read = some datum) :
    ∃ kind mantissa exponent, datum = .float kind (.finite negative mantissa exponent) := by
  obtain ⟨kind, -, found⟩ := Option.bind_eq_some_iff.1 found
  obtain ⟨_, -, found⟩ := Option.bind_eq_some_iff.1 found
  split at found
  · exact ⟨kind, _, _, (Option.some.inj found).symm⟩
  · cases found

theorem view_floatDatum?_iff (found : floatDatum? suffix negative read = some datum) :
    (View.ofDatum datum : View γ) = .text shown ↔ WrittenAsShown shown datum := by
  obtain ⟨_, _, _, rfl⟩ := of_floatDatum? found
  exact ⟨fun same => (View.text.inj same).symm, fun same => congrArg View.text same.symm⟩

theorem view_literal_iff (known : constantOf (.literal value) = some constant)
    (found : literalDatum? false value = some datum) :
    (View.ofDatum datum : View γ) = constant.view ↔ WrittenAsShown constant.shown datum := by
  cases value with
  | text | char | bool => cases known; cases found; exact iff_of_true rfl trivial
  | bytes => cases found
  | int value =>
    cases known
    simp only [literalDatum?] at found
    split at found
    · obtain rfl := of_integerDatum? found
      exact iff_of_true rfl (toString_ne_zero_with_minus value)
    · exact view_floatDatum?_iff found
  | float => cases known; exact view_floatDatum?_iff found

theorem view_negated_iff (known : constantOf (.negate (.literal value)) = some constant)
    (found : literalDatum? true value = some datum) :
    (View.ofDatum datum : View γ) = constant.view ↔ WrittenAsShown constant.shown datum := by
  cases value with
  | text => cases found
  | char => cases found
  | bool => cases found
  | bytes => cases found
  | int value =>
    cases known
    simp only [literalDatum?] at found
    split at found
    · obtain rfl := of_integerDatum? found
      exact ⟨fun same => (toString_neg_iff value).1 (View.text.inj same),
        fun shown => congrArg View.text ((toString_neg_iff value).2 shown)⟩
    · exact view_floatDatum?_iff found
  | float => cases known; exact view_floatDatum?_iff found

theorem view_datumOf_iff (known : constantOf e = some constant) (found : datumOf e = some datum) :
    (View.ofDatum datum : View γ) = constant.view ↔ WrittenAsShown constant.shown datum := by
  fun_induction datumOf e with
  | case1 => exact view_literal_iff known found
  | case2 => exact view_negated_iff known found
  | case3 _ ih => exact ih known found
  | case4 => cases found

def IsFinite : Datum → Prop
  | .float _ number => ∃ negative mantissa exponent, number = .finite negative mantissa exponent
  | _ => True

theorem isFinite_floatDatum? (found : floatDatum? suffix negative read = some datum) : IsFinite datum := by
  obtain ⟨_, mantissa, exponent, rfl⟩ := of_floatDatum? found
  exact ⟨negative, mantissa, exponent, rfl⟩

theorem isFinite_literalDatum? (found : literalDatum? negative value = some datum) : IsFinite datum := by
  unfold literalDatum? at found
  split at found
  case h_1 => split at found <;> cases found; trivial
  case h_2 => split at found <;> cases found; trivial
  case h_3 => split at found <;> cases found; trivial
  case h_4 value suffix =>
    split at found
    · exact of_integerDatum? found ▸ trivial
    · exact isFinite_floatDatum? found
  case h_5 => exact isFinite_floatDatum? found
  case h_6 => cases found

theorem isFinite_datumOf (found : datumOf e = some datum) : IsFinite datum := by
  fun_induction datumOf e with
  | case1 | case2 => exact isFinite_literalDatum? found
  | case3 _ ih => exact ih found
  | case4 => cases found

theorem plain_of_writtenAsShown {kind : FloatKind} {number : Number.Binary} (finite : IsFinite (.float kind number))
    (alike : WrittenAsShown shown (.float kind number)) : ∃ sign cs, shown.toList = sign ++ cs ∧ sign <+: ['-'] ∧ Plain cs := by
  obtain ⟨negative, mantissa, exponent, rfl⟩ := finite
  obtain ⟨cs, chars, plain⟩ := plain_text kind.format negative mantissa exponent
  refine ⟨if negative then ['-'] else [], cs, alike ▸ chars, ?_, plain⟩
  split
  · exact List.prefix_refl _
  · exact List.nil_prefix

theorem analyze?_constant {code : String} {given : Value} (looked : analyze? code = some given)
    (known : given.constant = some constant) :
    given.code = code ∧ ∃ e, parse? code = some e ∧ constantOf e = some constant := by
  obtain ⟨e, parsed, rfl⟩ := Option.map_eq_some_iff.1 looked
  revert known
  split
  · rename_i of
    exact fun known => ⟨rfl, e, parsed, of.trans known⟩
  · nofun

end Agreement

end LiveMarkup.Blueprint

namespace LiveMarkup.Codegen
open Blueprint Expression Live Markup Number

section Places

variable {given : Value} {constant : Constant}

theorem clientRoot_constant (known : given.constant = some constant) (span : Template.Span) :
    clientRoot (.expression given span) = pure given.code := by
  rw [clientRoot, Value.dynamic, known]
  rfl

theorem clientChild_constant (known : given.constant = some constant) (sole : Bool) (parent : Address) (cursor : ChildCursor)
    (span : Template.Span) : clientChild sole parent cursor (.expression given span) = clientText cursor constant.shown := by
  rw [clientChild, Value.dynamic, Value.shown, known]
  rfl

theorem serverNode_constant (known : given.constant = some constant) (place : Place) (span : Template.Span) :
    serverNode place (.expression given span) = pure [.markup (Entity.escapeAll constant.shown)] := by
  rw [serverNode, Value.dynamic, Value.shown, known]
  rfl

/-- However a constant is spelled, at a root its code is run; below an element and on the server its text is part of the
markup. Its value shows that text unless it is a zero with a minus, or a number with a point or an exponent whose text is
another. Such a number shows the same in both places only where it is spelled without an exponent, without zeros at its end
and with a zero in front of the point only alone. -/
theorem literals_shown_alike_iff {γ : Type} {code : String} (looked : analyze? code = some given)
    (known : given.constant = some constant) :
    (∀ span, clientRoot (.expression given span) = pure code) ∧
    (∀ sole parent cursor span, clientChild sole parent cursor (.expression given span) = clientText cursor constant.shown) ∧
    (∀ place span, serverNode place (.expression given span) = pure [.markup (Entity.escapeAll constant.shown)]) ∧
    ∀ datum, (Expression.parse? code).bind datumOf = some datum →
      ((View.ofDatum datum : View γ) = constant.view ↔ WrittenAsShown constant.shown datum) ∧
      ∀ kind number, datum = .float kind number → WrittenAsShown constant.shown datum →
        ∃ sign cs, constant.shown.toList = sign ++ cs ∧ sign <+: ['-'] ∧ Plain cs := by
  obtain ⟨same, e, parsed, of⟩ := analyze?_constant looked known
  refine ⟨fun span => same ▸ clientRoot_constant known span, clientChild_constant known, serverNode_constant known,
    fun datum found => ?_⟩
  have value : datumOf e = some datum := by rwa [parsed] at found
  refine ⟨view_datumOf_iff of value, ?_⟩
  rintro kind number rfl alike
  exact plain_of_writtenAsShown (isFinite_datumOf value) alike

theorem literals_shown_alike_iff_hexadecimal : analyze? "-0x1F" = some ⟨"-0x1F", some (.text "-31"), false, none⟩ ∧
      (Expression.parse? "-0x1F").bind datumOf = some (.integer ⟨true, .bits32⟩ (-31)) ∧
      (View.ofDatum (.integer ⟨true, .bits32⟩ (-31)) : View Unit) = .text "-31" := by
  have looked : analyze? "-0x1F" = some ⟨"-0x1F", some (.text "-31"), false, none⟩ := by decide +kernel
  have value : (Expression.parse? "-0x1F").bind datumOf = some (.integer ⟨true, .bits32⟩ (-31)) := rfl
  exact ⟨looked, value, ((literals_shown_alike_iff looked rfl).2.2.2 _ value).1.2 (show "-31" ≠ "-0" by decide)⟩

/-- A number that is spelled with zeros at its end or with an exponent, and a zero with a minus, are written as spelled and
shown without them. -/
theorem literals_shown_differently :
    (["1.50", "1e3", "-0"].map fun code => (analyze? code).bind fun given => given.constant.map Constant.view) =
        [some (.text "1.50" : View Unit), some (.text "1e3"), some (.text "-0")] ∧
      (["1.50", "1e3", "-0"].map fun code => ((Expression.parse? code).bind datumOf).map View.ofDatum) =
        [some (.text "1.5" : View Unit), some (.text "1000"), some (.text "0")] :=
  ⟨rfl, rfl⟩

end Places

end LiveMarkup.Codegen
