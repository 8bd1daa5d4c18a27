import LiveMarkup.Expression.Quotation
import Mathlib.Data.List.Basic
import Mathlib.Data.List.TakeWhile

/-!
Number and quotation literals in front of other text. What is read depends on the text behind it only up to the next
blank, bracket, comma or semicolon.
-/

namespace LiveMarkup.Expression
open Text Option List Prod

section Stops

/-- Blanks, brackets, commas and semicolons: no token goes on with one of them, or goes on behind one. -/
def stops : List Char := [' ', '\n', ',', ';', '(', ')', '[', ']', '\x7b', '\x7d']

def Stopped (cs : List Char) : Prop := ∀ c ∈ cs.head?, c ∈ stops

def Similar (a b : List Char) : Prop := ∃ same s t, a = same ++ s ∧ b = same ++ t ∧ Stopped s ∧ Stopped t

variable {p : Char → Bool} {t w : List Char} {n : Nat}

theorem fails_at_stops (each : stops.all (!p ·) = true) : ∀ c ∈ stops, p c = false := by
  simpa using each

theorem ne_of_stop {c d : Char} (stop : c ∈ stops) (other : d ∉ stops) : c ≠ d := fun same => other (same ▸ stop)

theorem Stopped.cases (stopped : Stopped t) : t = [] ∨ ∃ c rest, t = c :: rest ∧ c ∈ stops := by
  cases t with
  | nil => exact .inl rfl
  | cons c rest => exact .inr ⟨c, rest, rfl, stopped c rfl⟩

theorem not_identifierPart : ∀ c ∈ stops, isIdentifierPart c = false := fails_at_stops (by decide)

theorem not_identifierStart : ∀ c ∈ stops, isIdentifierStart c = false := fails_at_stops (by decide)

theorem head_append_stopped (none : ∀ c ∈ stops, p c = false) (w : List Char) (stopped : Stopped t) :
    ((w ++ t).head?.map p).getD false = (w.head?.map p).getD false := by
  cases w with
  | nil =>
    obtain rfl | ⟨c, _, rfl, stop⟩ := stopped.cases
    · rfl
    · simp [none c stop]
  | cons => rfl

theorem takeWhile_append_stopped (none : ∀ c ∈ stops, p c = false) (w : List Char) (stopped : Stopped t) :
    (w ++ t).takeWhile p = w.takeWhile p := by
  induction w with
  | nil =>
    obtain rfl | ⟨c, _, rfl, stop⟩ := stopped.cases
    · rfl
    · simp [none c stop]
  | cons _ _ ih => rw [cons_append, takeWhile_cons, takeWhile_cons, ih]

theorem drop_append_of_le (t : List Char) (le : n ≤ w.length) : (w ++ t).drop n = w.drop n ++ t :=
  drop_append_of_le_length le

end Stops

namespace Number

variable {t : List Char} {cs : List Char} {n : Nat} {m length : Nat} {empty : Bool}

theorem suffix_append (w : List Char) (stopped : Stopped t) : suffix (w ++ t) = suffix w := by
  cases w with
  | nil =>
    obtain rfl | ⟨c, _, rfl, stop⟩ := stopped.cases
    · rfl
    · simp [suffix, not_identifierStart c stop]
  | cons _ w => simp [suffix, takeWhile_append_stopped not_identifierPart w stopped]

theorem suffix_length_le (cs : List Char) : (suffix cs).length ≤ cs.length := by
  unfold suffix
  split
  · split
    · simpa using (takeWhile_sublist _).length_le
    · simp
  · simp

theorem digits_append (w : List Char) (stopped : Stopped t) : (w ++ t).takeWhile isDigitOrGap = w.takeWhile isDigitOrGap :=
  takeWhile_append_stopped (fails_at_stops (by decide)) w stopped

def behindSign (n : Nat) : List Char → Nat × List Char
  | '+' :: rest => (n + 1, rest)
  | '-' :: rest => (n + 1, rest)
  | rest => (n, rest)

def behindSigns (cs : List Char) : Nat × List Char :=
  match cs with
  | '_' :: _ => behindSign (cs.takeWhile (· == '_')).length (cs.drop (cs.takeWhile (· == '_')).length)
  | _ => behindSign 0 cs

theorem exponentLength?_eq (cs : List Char) : exponentLength? cs =
    let digits := (behindSigns cs).2.takeWhile isDigitOrGap
    if digits.any Char.isDigit then some ((behindSigns cs).1 + digits.length) else none := by
  cases cs with
  | nil => rfl
  | cons c =>
    by_cases gap : c = '_'
    · subst gap
      rfl
    · by_cases plus : c = '+'
      · subst plus
        rfl
      · by_cases minus : c = '-'
        · subst minus
          rfl
        · simp [exponentLength?, behindSigns, behindSign, gap, plus, minus]

theorem behindSign_append (n : Nat) (w : List Char) (stopped : Stopped t) :
    behindSign n (w ++ t) = ((behindSign n w).1, (behindSign n w).2 ++ t) := by
  cases w with
  | nil =>
    obtain rfl | ⟨_, _, rfl, stop⟩ := stopped.cases
    · rfl
    · simp [behindSign, ne_of_stop stop (d := '+') (by decide), ne_of_stop stop (d := '-') (by decide)]
  | cons c =>
    by_cases plus : c = '+'
    · subst plus
      rfl
    · by_cases minus : c = '-'
      · subst minus
        rfl
      · rw [cons_append, behindSign.eq_3, behindSign.eq_3, cons_append]
        all_goals
          intro rest same
          simp_all

theorem behindSigns_append (w : List Char) (stopped : Stopped t) :
    behindSigns (w ++ t) = ((behindSigns w).1, (behindSigns w).2 ++ t) := by
  by_cases gap : w.head? = some '_'
  · obtain ⟨w, rfl⟩ := head?_eq_some_iff.mp gap
    have width : (('_' :: w) ++ t).takeWhile (· == '_') = ('_' :: w).takeWhile (· == '_') := by
      exact takeWhile_append_stopped (fails_at_stops (by decide)) _ stopped
    have rest := drop_append_of_le t (takeWhile_sublist (· == '_') (l := '_' :: w)).length_le
    rw [cons_append] at width rest ⊢
    simp only [behindSigns, width, rest, behindSign_append _ _ stopped]
  · have plain (cs : List Char) (no : cs.head? ≠ some '_') : behindSigns cs = behindSign 0 cs := by
      unfold behindSigns
      split
      · exact absurd rfl no
      · rfl
    rw [plain w gap, plain, behindSign_append _ _ stopped]
    cases w with
    | nil =>
      intro first
      exact absurd (stopped '_' first) (by decide)
    | cons => exact gap

theorem behindSign_length (n : Nat) (cs : List Char) : (behindSign n cs).1 + (behindSign n cs).2.length = n + cs.length := by
  unfold behindSign
  split <;> simp only [length_cons] <;> omega

theorem behindSigns_length (cs : List Char) : (behindSigns cs).1 + (behindSigns cs).2.length = cs.length := by
  unfold behindSigns
  split
  · rename_i rest
    have le := (takeWhile_sublist (· == '_') (l := '_' :: rest)).length_le
    rw [behindSign_length, length_drop]
    omega
  · rw [behindSign_length, Nat.zero_add]

theorem exponentLength?_append (w : List Char) (stopped : Stopped t) : exponentLength? (w ++ t) = exponentLength? w := by
  simp only [exponentLength?_eq, behindSigns_append w stopped, digits_append _ stopped]

theorem exponentLength?_le (found : exponentLength? cs = some n) : n ≤ cs.length := by
  rw [exponentLength?_eq] at found
  dsimp only at found
  split at found
  · have whole := behindSigns_length cs
    have digits := (takeWhile_sublist isDigitOrGap (l := (behindSigns cs).2)).length_le
    obtain rfl := some.inj found
    omega
  · cases found

theorem exponentBehind?_append (n : Nat) (w : List Char) (without : Option Nat) (stopped : Stopped t) :
    exponentBehind? n (w ++ t) without = exponentBehind? n w without := by
  cases w with
  | nil =>
    obtain rfl | ⟨_, _, rfl, stop⟩ := stopped.cases
    · rfl
    · simp [exponentBehind?, ne_of_stop stop (d := 'e') (by decide), ne_of_stop stop (d := 'E') (by decide)]
  | cons c w =>
    by_cases small : c = 'e'
    · subst small
      simp [exponentBehind?, exponentLength?_append w stopped]
    · by_cases large : c = 'E'
      · subst large
        simp [exponentBehind?, exponentLength?_append w stopped]
      · simp [exponentBehind?, small, large]

theorem exponentBehind?_le {rest : List Char} {without : Option Nat} (found : exponentBehind? n rest without = some m)
    (le : ∀ k ∈ without, k ≤ n + rest.length) : m ≤ n + rest.length := by
  have behind {tail : List Char} {k : Nat} (exponent : exponentLength? tail = some k) :
      n + 1 + k ≤ n + (tail.length + 1) := by
    have le := exponentLength?_le exponent
    omega
  unfold exponentBehind? at found
  split at found
  · obtain made | ⟨-, made⟩ := or_eq_some_iff.mp found
    · obtain ⟨_, exponent, rfl⟩ := map_eq_some_iff.mp made
      exact behind exponent
    · exact le m made
  · obtain made | ⟨-, made⟩ := or_eq_some_iff.mp found
    · obtain ⟨_, exponent, rfl⟩ := map_eq_some_iff.mp made
      exact behind exponent
    · exact le m made
  · exact le m found

theorem floatBehind?_append (w : List Char) {whole : Nat} (le : whole ≤ w.length) (stopped : Stopped t) :
    floatBehind? (w ++ t) whole = floatBehind? w whole := by
  rw [floatBehind?, drop_append_of_le t le]
  cases rest : w.drop whole with
  | nil =>
    rw [floatBehind?, rest]
    obtain rfl | ⟨_, _, rfl, stop⟩ := stopped.cases
    · rfl
    · simp [exponentBehind?, ne_of_stop stop (d := '.') (by decide), ne_of_stop stop (d := 'e') (by decide),
        ne_of_stop stop (d := 'E') (by decide)]
  | cons c tail =>
    by_cases point : c = '.'
    · subst point
      have goesOn : ((tail ++ t).head?.map fun c => c == '.' || isIdentifierStart c).getD false =
          (tail.head?.map fun c => c == '.' || isIdentifierStart c).getD false :=
        head_append_stopped (fails_at_stops (by decide)) tail stopped
      have width : whole + 1 + (tail.takeWhile isDigitOrGap).length ≤ w.length := by
        have digits := (takeWhile_sublist isDigitOrGap (l := tail)).length_le
        have length := congrArg length rest
        rw [length_drop, length_cons] at length
        omega
      simp only [cons_append, goesOn, digits_append tail stopped, drop_append_of_le t width,
        exponentBehind?_append _ _ _ stopped, floatBehind?, rest]
    · have same := exponentBehind?_append whole (c :: tail) none stopped
      simpa [floatBehind?, rest, point] using same

theorem floatLength?_append (w : List Char) (stopped : Stopped t) : floatLength? (w ++ t) = floatLength? w := by
  have le := (takeWhile_sublist isDigitOrGap (l := w)).length_le
  rw [floatLength?, floatLength?, head_append_stopped (fails_at_stops (by decide)) w stopped, digits_append w stopped,
    floatBehind?_append w le stopped]

theorem floatLength?_le (found : floatLength? cs = some n) : n ≤ cs.length := by
  rw [floatLength?] at found
  split at found
  · have whole := (takeWhile_sublist isDigitOrGap (l := cs)).length_le
    rw [floatBehind?] at found
    split at found
    · rename_i rest behind
      split at found
      · cases found
      · have digits := (takeWhile_sublist isDigitOrGap (l := rest)).length_le
        have length := congrArg length behind
        rw [length_drop, length_cons] at length
        have le := exponentBehind?_le found fun k same => by
          obtain rfl := some.inj same
          omega
        rw [length_drop] at le
        omega
    · have le := exponentBehind?_le found nofun
      rw [length_drop] at le
      omega
  · cases found

theorem integerDigits?_append {base value : Nat} (w : List Char) (stopped : Stopped t) :
    integerDigits? base length value empty (w ++ t) = integerDigits? base length value empty w := by
  induction w generalizing length value empty with
  | nil =>
    obtain rfl | ⟨c, _, rfl, stop⟩ := stopped.cases
    · rfl
    · have digit : (c.isDigit || (('a' ≤ c && c ≤ 'f') || ('A' ≤ c && c ≤ 'F'))) = false :=
        fails_at_stops (p := fun c => c.isDigit || (('a' ≤ c && c ≤ 'f') || ('A' ≤ c && c ≤ 'F'))) (by decide) c stop
      simp only [nil_append, integerDigits?, if_neg (ne_of_stop stop (d := '_') (by decide)), digit]
      rfl
  | cons _ _ ih => simp only [cons_append, integerDigits?, ih]

theorem integerDigits?_le {base value : Nat}
    (found : integerDigits? base length value empty cs = some (n, m)) : n ≤ length + cs.length := by
  induction cs generalizing length value empty with
  | nil =>
    rw [integerDigits?] at found
    split at found
    · cases found
    · obtain ⟨rfl, -⟩ := mk.inj (some.inj found)
      exact Nat.le_refl length
  | cons c cs ih =>
    have finished (found : (if empty then none else some (length, value)) = some (n, m)) : n ≤ length + (c :: cs).length := by
      split at found
      · cases found
      · obtain ⟨rfl, -⟩ := mk.inj (some.inj found)
        exact Nat.le_add_right ..
    have later {value : Nat} {empty : Bool} (found : integerDigits? base (length + 1) value empty cs = some (n, m)) :
        n ≤ length + (c :: cs).length := by
      have le := ih found
      rw [length_cons]
      omega
    rw [integerDigits?] at found
    dsimp only at found
    split at found
    · split at found
      · cases found
      · exact later found
    · split at found
      · split at found
        · split at found
          · exact later found
          · split at found
            · cases found
            · exact finished found
        · exact finished found
      · exact finished found

section

variable (w : List Char)
include w

theorem breaks_append (stopped : Stopped t) : breaks (w ++ t) = breaks w := by
  rw [breaks, breaks, head_append_stopped not_identifierPart w stopped]

theorem suffix_drop_append (le : n ≤ w.length) (stopped : Stopped t) :
    suffix ((w ++ t).drop n) = suffix (w.drop n) := by
  rw [drop_append_of_le t le, suffix_append _ stopped]

theorem behindLetters_append (le : n ≤ w.length) :
    (w ++ t).drop (n + (suffix (w.drop n)).length) = w.drop (n + (suffix (w.drop n)).length) ++ t := by
  have letters := suffix_length_le (w.drop n)
  rw [length_drop] at letters
  exact drop_append_of_le t (by omega)

theorem float?_append (stopped : Stopped t) :
    float? (w ++ t) = (float? w).map fun (value, rest) => (value, rest ++ t) := by
  rw [float?, float?, floatLength?_append w stopped]
  cases found : floatLength? w with
  | none => rfl
  | some n =>
    have le := floatLength?_le found
    have spelling : (w ++ t).take n = w.take n := take_append_of_le_length le
    simp only [bind_some, suffix_drop_append w le stopped, behindLetters_append w le, breaks_append _ stopped, spelling]
    split <;> rfl

theorem base_append (stopped : Stopped t) : base (w ++ t) = ((base w).1, (base w).2 ++ t) := by
  obtain rfl | ⟨_, _, rfl, stop⟩ := stopped.cases
  · simp
  · have zero := ne_of_stop stop (d := '0') (by decide)
    have hexadecimal := ne_of_stop stop (d := 'x') (by decide)
    have octal := ne_of_stop stop (d := 'o') (by decide)
    have binary := ne_of_stop stop (d := 'b') (by decide)
    rcases w with _ | ⟨d, _ | ⟨e, w⟩⟩
    · simp [base, zero]
    · simp [base, hexadecimal, octal, binary]
    · unfold base
      split <;> split <;> simp_all

theorem integer?_append (stopped : Stopped t) :
    integer? (w ++ t) = (integer? w).map fun (value, rest) => (value, rest ++ t) := by
  rw [integer?, integer?, head_append_stopped (fails_at_stops (by decide)) w stopped]
  split
  · rw [base_append w stopped]
    simp only [integerDigits?_append _ stopped]
    cases found : integerDigits? (base w).1 0 0 true (base w).2 with
    | none => rfl
    | some result =>
      obtain ⟨_, _⟩ := result
      have le := integerDigits?_le found
      rw [Nat.zero_add] at le
      simp only [bind_some, suffix_drop_append _ le stopped, behindLetters_append _ le, breaks_append _ stopped]
      split <;> rfl
  · rfl

theorem read?_append (stopped : Stopped t) :
    read? (w ++ t) = (read? w).map fun (value, rest) => (value, rest ++ t) := by
  rw [read?, read?, float?_append w stopped, integer?_append w stopped]
  cases float? w <;> rfl

end

theorem base_suffix (cs : List Char) : (base cs).2 <:+ cs := by
  unfold base
  split
  · exact List.suffix_append [_, _] _
  · exact List.suffix_append [_, _] _
  · exact List.suffix_append [_, _] _
  · exact List.suffix_rfl

theorem read?_suffix {rest : List Char} {value : Literal} (found : read? cs = some (value, rest)) : rest <:+ cs := by
  obtain found | ⟨-, found⟩ := or_eq_some_iff.mp found
  · obtain ⟨_, -, found⟩ := bind_eq_some_iff.mp found
    obtain ⟨-, found⟩ := ite_none_right_eq_some.mp found
    obtain ⟨-, rfl⟩ := mk.inj (some.inj found)
    exact drop_suffix ..
  · rw [integer?] at found
    obtain ⟨-, found⟩ := ite_none_right_eq_some.mp found
    obtain ⟨⟨_, _⟩, -, found⟩ := bind_eq_some_iff.mp found
    obtain ⟨-, found⟩ := ite_none_right_eq_some.mp found
    obtain ⟨-, rfl⟩ := mk.inj (some.inj found)
    exact (drop_suffix ..).trans (base_suffix cs)

end Number

namespace Quotation

variable {α : Type} {kind : Kind} {rest cs : List Char}

def Closed (read : List Char → Option (α × List Char)) : Prop :=
  ∀ {cs a rest}, read cs = some (a, rest) → ∃ u, u ≠ [] ∧ cs = u ++ rest ∧ ∀ more, read (u ++ more) = some (a, more)

theorem closed_hexPair? : Closed hexPair? := by
  intro cs value rest found
  unfold hexPair? at found
  split at found
  · rename_i a b rest'
    obtain ⟨_, first, found⟩ := bind_eq_some_iff.mp found
    obtain ⟨_, second, found⟩ := bind_eq_some_iff.mp found
    obtain ⟨rfl, rfl⟩ := mk.inj (some.inj found)
    exact ⟨[a, b], by simp, rfl, fun more => by simp [hexPair?, first, second]⟩
  · cases found

theorem closed_bracedDigits? (count value : Nat) : Closed (bracedDigits? count value) := by
  intro cs c rest found
  fun_induction bracedDigits? count value cs with
  | case1 => cases found
  | case2 _ _ d _ gap ih =>
    obtain ⟨u, -, rfl, again⟩ := ih found
    exact ⟨d :: u, by simp, rfl, fun more => by rw [cons_append, bracedDigits?, if_pos gap, again]⟩
  | case3 _ _ d _ _ close =>
    obtain ⟨_, scalar, found⟩ := map_eq_some_iff.mp found
    obtain ⟨rfl, rfl⟩ := mk.inj found
    exact ⟨[d], by simp, rfl, fun more => by simp [bracedDigits?, close, scalar]⟩
  | case4 => cases found
  | case5 _ _ d _ gap close _ hex room ih =>
    obtain ⟨u, -, rfl, again⟩ := ih found
    exact ⟨d :: u, by simp, rfl, fun more => by simp [bracedDigits?, gap, close, hex, room, again]⟩
  | case6 => cases found

theorem closed_escape? : Closed (escape? kind) := by
  intro cs c rest found
  unfold escape? at found
  split at found
  case h_1 body =>
    obtain ⟨⟨_, _⟩, pair, found⟩ := bind_eq_some_iff.mp found
    obtain ⟨high, found⟩ := ite_none_left_eq_some.mp found
    obtain ⟨zero, found⟩ := ite_none_left_eq_some.mp found
    obtain ⟨rfl, rfl⟩ := mk.inj (some.inj found)
    obtain ⟨u, -, rfl, again⟩ := closed_hexPair? pair
    exact ⟨'x' :: u, by simp, rfl, fun more => by simp only [cons_append, escape?, again, bind_some, high, zero, if_false]⟩
  case h_2 body =>
    obtain ⟨bytes, found⟩ := ite_none_left_eq_some.mp found
    obtain ⟨⟨_, _⟩, code, found⟩ := bind_eq_some_iff.mp found
    obtain ⟨zero, found⟩ := ite_none_left_eq_some.mp found
    obtain ⟨rfl, rfl⟩ := mk.inj (some.inj found)
    unfold bracedCode? at code
    split at code
    · obtain ⟨u, -, rfl, again⟩ := closed_bracedDigits? 0 0 code
      exact ⟨'u' :: '\x7b' :: u, by simp, rfl, fun more => by
        simp only [cons_append, escape?, bracedCode?, again, bytes, if_false, bind_some, zero]⟩
    · cases code
  case h_9 body =>
    obtain ⟨terminated, found⟩ := ite_none_left_eq_some.mp found
    obtain ⟨rfl, rfl⟩ := mk.inj (some.inj found)
    exact ⟨['0'], by simp, rfl, fun more => by simp [escape?, terminated]⟩
  case h_10 => cases found
  all_goals
    obtain ⟨rfl, rfl⟩ := mk.inj (some.inj found)
    exact ⟨[_], by simp, rfl, fun more => rfl⟩

theorem continuation?_local {cs rest : List Char} (found : continuation? cs = some rest) :
    ∃ u, cs = u ++ rest ∧ ∀ more, more.head? = rest.head? → continuation? (u ++ more) = some more := by
  fun_induction continuation? cs with
  | case1 _ ih =>
    obtain ⟨u, rfl, again⟩ := ih found
    exact ⟨'\r' :: '\n' :: u, rfl, fun more same => by rw [cons_append, cons_append, continuation?, again more same]⟩
  | case2 => cases found
  | case3 _ ih =>
    obtain ⟨u, rfl, again⟩ := ih found
    exact ⟨'\n' :: u, rfl, fun more same => by rw [cons_append, continuation?, again more same]⟩
  | case4 _ ih =>
    obtain ⟨u, rfl, again⟩ := ih found
    exact ⟨' ' :: u, rfl, fun more same => by rw [cons_append, continuation?, again more same]⟩
  | case5 _ ih =>
    obtain ⟨u, rfl, again⟩ := ih found
    exact ⟨'\t' :: u, rfl, fun more same => by rw [cons_append, continuation?, again more same]⟩
  | case6 => cases found
  | case7 _ _ bare line space tab solid =>
    obtain rfl := some.inj found
    refine ⟨[], rfl, fun more same => ?_⟩
    obtain ⟨_, _, rfl⟩ := exists_cons_of_ne_nil solid
    obtain ⟨_, rfl⟩ := head?_eq_some_iff.mp same
    exact continuation?.eq_7 _ (fun _ begins => bare _ (by rw [(cons.inj begins).1])) (fun _ begins => bare _ (by rw [(cons.inj begins).1]))
      (fun _ begins => line _ (by rw [(cons.inj begins).1])) (fun _ begins => space _ (by rw [(cons.inj begins).1]))
      (fun _ begins => tab _ (by rw [(cons.inj begins).1])) nofun

theorem string?_cons (fuel : Nat) (c : Char) (cs : List Char) : string? kind (fuel + 1) (c :: cs) =
    let push (d : Char) (rest : List Char) := (string? kind fuel rest).map fun (value, rest) => (d :: value, rest)
    if c = '"' then some ([], cs)
    else if c = '\r' then
      match cs with
      | '\n' :: rest => push '\n' rest
      | _ => none
    else if c = '\\' then
      if cs.head? = some '\n' ∨ cs.head? = some '\r' then (continuation? cs).bind (string? kind fuel)
      else (escape? kind cs).bind fun (d, rest) => push d rest
    else if admits kind c then push c cs
    else none :=
  (string?.eq_def kind (fuel + 1) (c :: cs)).trans rfl

theorem string?_local {fuel : Nat} {value : List Char} (found : string? kind fuel cs = some (value, rest)) :
    ∃ u, u ≠ [] ∧ cs = u ++ rest ∧
      ∀ fuel more, u.length ≤ fuel → string? kind fuel (u ++ more) = some (value, more) := by
  induction fuel generalizing cs value with
  | zero => cases found
  | succ fuel ih =>
    cases cs with
    | nil => cases found
    | cons c cs =>
      -- what is read from the first character on, once the rest is
      have push {d : Char} {front behind : List Char} (whole : c :: cs = front ++ behind)
          (step : ∀ fuel more, string? kind (fuel + 1) (front ++ more) =
            (string? kind fuel more).map fun (value, rest) => (d :: value, rest)) (solid : front ≠ [])
          (made : ((string? kind fuel behind).map fun (value, rest) => (d :: value, rest)) = some (value, rest)) :
          ∃ u, u ≠ [] ∧ c :: cs = u ++ rest ∧
            ∀ fuel more, u.length ≤ fuel → string? kind fuel (u ++ more) = some (value, more) := by
        obtain ⟨⟨_, _⟩, later, same⟩ := map_eq_some_iff.mp made
        obtain ⟨rfl, rfl⟩ := mk.inj same
        obtain ⟨u, -, rfl, again⟩ := ih later
        refine ⟨front ++ u, by simp [solid], by rw [whole, append_assoc], fun fuel more le => ?_⟩
        have first := length_pos_iff.mpr solid
        rw [length_append] at le
        obtain ⟨fuel, rfl⟩ : ∃ n, fuel = n + 1 := ⟨fuel - 1, by omega⟩
        rw [append_assoc, step, again fuel more (by omega)]
        rfl
      rw [string?_cons] at found
      dsimp only at found
      split at found
      · rename_i quote
        obtain ⟨rfl, rfl⟩ := mk.inj (some.inj found)
        refine ⟨[c], by simp, rfl, fun fuel more le => ?_⟩
        obtain ⟨fuel, rfl⟩ : ∃ n, fuel = n + 1 := ⟨fuel - 1, by simp at le; omega⟩
        rw [singleton_append, string?_cons]
        exact if_pos quote
      · rename_i quote
        split at found
        · rename_i bare
          subst bare
          split at found
          · rename_i behind
            have whole : '\r' :: '\n' :: behind = ['\r', '\n'] ++ behind := rfl
            exact push whole (fun fuel more => rfl) (by simp) found
          · cases found
        · rename_i bare
          split at found
          · rename_i escape
            subst escape
            split at found
            · rename_i line
              obtain ⟨_, skipped, later⟩ := bind_eq_some_iff.mp found
              obtain ⟨gap, rfl, skips⟩ := continuation?_local skipped
              obtain ⟨u, solid, rfl, again⟩ := ih later
              have first (more : List Char) : (u ++ more).head? = (u ++ rest).head? := by
                rw [head?_append_of_ne_nil _ solid, head?_append_of_ne_nil _ solid]
              have ahead (more : List Char) : (gap ++ (u ++ more)).head? = (gap ++ (u ++ rest)).head? := by
                rw [head?_append, head?_append (l := gap), first]
              refine ⟨'\\' :: (gap ++ u), by simp, by simp, fun fuel more le => ?_⟩
              rw [length_cons, length_append] at le
              obtain ⟨fuel, rfl⟩ : ∃ n, fuel = n + 1 := ⟨fuel - 1, by omega⟩
              rw [cons_append, append_assoc, string?_cons]
              simp only [quote, bare, if_false, if_true, ahead more, line, skips _ (first more), bind_some]
              exact again fuel more (by omega)
            · rename_i line
              obtain ⟨⟨_, behind⟩, escaped, made⟩ := bind_eq_some_iff.mp found
              obtain ⟨u, solid, rfl, again⟩ := closed_escape? escaped
              have whole : '\\' :: (u ++ behind) = '\\' :: u ++ behind := rfl
              refine push whole (fun fuel more => ?_) (by simp) made
              rw [head?_append_of_ne_nil _ solid] at line
              rw [cons_append, string?_cons]
              simp only [quote, bare, if_false, if_true, head?_append_of_ne_nil _ solid, line, again, bind_some]
          · rename_i escape
            split at found
            · rename_i admitted
              have whole : c :: cs = [c] ++ cs := rfl
              exact push whole (fun fuel more => by simp [string?_cons, quote, bare, escape, admitted]) (by simp) found
            · cases found

theorem rawString?_local {hashes : Nat} {value : List Char} (found : rawString? kind hashes cs = some (value, rest)) :
    ∃ u, hashes < u.length ∧ cs = u ++ rest ∧ ∀ more, rawString? kind hashes (u ++ more) = some (value, more) := by
  induction cs generalizing value with
  | nil => cases found
  | cons c cs ih =>
    rw [rawString?] at found
    split at found
    · rename_i close
      obtain ⟨rfl, rfl⟩ := mk.inj (some.inj found)
      have whole : cs = replicate hashes '#' ++ cs.drop hashes := by
        rw [← close.2, take_append_drop]
      refine ⟨c :: replicate hashes '#', by simp, by rw [cons_append, ← whole], fun more => ?_⟩
      rw [cons_append, rawString?, if_pos]
      · simp
      · simp [close.1]
    · rename_i ahead
      obtain ⟨bare, found⟩ := ite_none_left_eq_some.mp found
      obtain ⟨admitted, found⟩ := ite_none_right_eq_some.mp found
      obtain ⟨⟨_, behind⟩, later, same⟩ := map_eq_some_iff.mp found
      obtain ⟨rfl, rfl⟩ := mk.inj same
      obtain ⟨u, _, rfl, again⟩ := ih later
      refine ⟨c :: u, by rw [length_cons]; omega, rfl, fun more => ?_⟩
      have solid : u ≠ [] := ne_nil_of_length_pos (by omega)
      -- a quote with too few hashes is seen without looking behind the closing ones
      rw [take_append_of_le_length (by omega)] at ahead
      rw [head?_append_of_ne_nil _ solid] at bare
      rw [cons_append, rawString?, take_append_of_le_length (by omega), head?_append_of_ne_nil _ solid,
        if_neg ahead, if_neg bare, if_pos admitted, again]
      rfl

theorem closed_raw? : Closed (raw? kind) := by
  intro cs value rest found
  rw [raw?] at found
  split at found
  · rename_i body behind
    obtain ⟨few, found⟩ := ite_none_right_eq_some.mp found
    obtain ⟨u, -, same, again⟩ := rawString?_local found
    have all : ∀ c ∈ cs.takeWhile (· = '#'), decide (c = '#') = true := fun c => all_eq_true.mp all_takeWhile c
    have whole : cs = cs.takeWhile (· = '#') ++ cs.drop (cs.takeWhile (· = '#')).length :=
      (prefix_iff_eq_append.mp ( takeWhile_prefix _)).symm
    generalize cs.takeWhile (· = '#') = hashes at *
    refine ⟨hashes ++ '"' :: u, by simp, by rw [whole, behind, same, append_assoc, cons_append], fun more => ?_⟩
    have first : (hashes ++ '"' :: (u ++ more)).takeWhile (· = '#') = hashes := by
      rw [takeWhile_append_of_pos all]
      simp
    rw [append_assoc, cons_append, raw?, first]
    simp only [drop_left, few, if_true, again]
  · cases found

theorem closed_char? : Closed (char? kind) := by
  intro cs c rest found
  unfold char? at found
  split at found
  · obtain ⟨⟨_, _⟩, escaped, made⟩ := bind_eq_some_iff.mp found
    dsimp only at made
    split at made
    · obtain ⟨rfl, rfl⟩ := mk.inj (some.inj made)
      obtain ⟨u, -, rfl, again⟩ := closed_escape? escaped
      refine ⟨'\\' :: (u ++ ['\'']), by simp, by simp, fun more => ?_⟩
      rw [cons_append, append_assoc, char?, again]
      rfl
    · cases made
  · rename_i d behind escape
    obtain ⟨admitted, found⟩ := ite_none_right_eq_some.mp found
    obtain ⟨rfl, rfl⟩ := mk.inj (some.inj found)
    refine ⟨[d, '\''], by simp, rfl, fun more => ?_⟩
    rw [cons_append, singleton_append, char?.eq_2 _ _ _ escape, if_pos admitted]
  · cases found

end Quotation

section Similar
variable {a b t : List Char}

theorem Similar.append_left (similar : Similar a b) (u : List Char) : Similar (u ++ a) (u ++ b) := by
  obtain ⟨same, s, t, rfl, rfl, one, two⟩ := similar
  exact ⟨u ++ same, s, t, by rw [append_assoc], by rw [append_assoc], one, two⟩

theorem Similar.refl (a : List Char) : Similar a a :=
  ⟨a, [], [], (append_nil a).symm, (append_nil a).symm, nofun, nofun⟩

theorem similar_append (a : List Char) (stopped : Stopped t) : Similar a (a ++ t) :=
  ⟨a, [], t, (append_nil a).symm, rfl, nofun, stopped⟩

theorem Number.suffix_similar (similar : Similar a b) : Number.suffix a = Number.suffix b := by
  obtain ⟨same, _, _, rfl, rfl, one, two⟩ := similar
  rw [Number.suffix_append same one, Number.suffix_append same two]

theorem Number.suffix_prefix (cs : List Char) : Number.suffix cs <+: cs := by
  unfold Number.suffix
  split
  · split
    · exact cons_prefix_cons.mpr ⟨rfl, takeWhile_prefix _⟩
    · exact nil_prefix
  · exact nil_prefix
end Similar
namespace Quotation

theorem closed_behind {α : Type} {reader : List Char → Option (α × List Char)} {make : α → Literal} {mark body rest : List Char}
    {value : Literal} (solid : mark ≠ [])
    (again : ∀ {a rest}, reader body = some (a, rest) →
      ∃ u, body = u ++ rest ∧ ∀ more, bare? (mark ++ (u ++ more)) = some (make a, more))
    (found : (reader body).map (fun result => (make result.1, result.2)) = some (value, rest)) :
    ∃ u, u ≠ [] ∧ mark ++ body = u ++ rest ∧ ∀ more, bare? (u ++ more) = some (value, more) := by
  obtain ⟨⟨_, _⟩, taken, same⟩ := map_eq_some_iff.mp found
  obtain ⟨rfl, rfl⟩ := mk.inj same
  obtain ⟨u, rfl, same⟩ := again taken
  exact ⟨mark ++ u, by simp [solid], by rw [append_assoc], fun more => by rw [append_assoc, same]⟩

theorem closed_bare? : Closed bare? := by
  have string {kind : Kind} {fuel : Nat} {body rest : List Char} {value : Literal} (mark : List Char)
      (make : List Char → Literal) (solid : mark ≠ [])
      (eq : ∀ cs, bare? (mark ++ cs) = (string? kind (mark ++ cs).length cs).map fun result => (make result.1, result.2))
      (found : (string? kind fuel body).map (fun result => (make result.1, result.2)) = some (value, rest)) :
      ∃ u, u ≠ [] ∧ mark ++ body = u ++ rest ∧ ∀ more, bare? (u ++ more) = some (value, more) := by
    refine closed_behind solid (fun found => ?_) found
    obtain ⟨u, -, rfl, again⟩ := string?_local found
    refine ⟨u, rfl, fun more => ?_⟩
    rw [eq, again _ more (by simp only [length_append]; omega)]
    rfl
  have other {α : Type} {reader : List Char → Option (α × List Char)} {body rest : List Char} {value : Literal}
      (closed : Closed reader) (mark : List Char) (make : α → Literal) (solid : mark ≠ [])
      (eq : ∀ cs, bare? (mark ++ cs) = (reader cs).map fun result => (make result.1, result.2))
      (found : (reader body).map (fun result => (make result.1, result.2)) = some (value, rest)) :
      ∃ u, u ≠ [] ∧ mark ++ body = u ++ rest ∧ ∀ more, bare? (u ++ more) = some (value, more) := by
    refine closed_behind solid (fun found => ?_) found
    obtain ⟨u, -, rfl, again⟩ := closed found
    exact ⟨u, rfl, fun more => by rw [eq, again]; rfl⟩
  intro cs value rest found
  unfold bare? at found
  dsimp only at found
  split at found
  case h_1 => exact string ['"'] (.text <| String.ofList ·) (by simp) (fun _ => rfl) found
  case h_2 => exact other closed_raw? ['r'] (.text <| String.ofList ·) (by simp) (fun _ => rfl) found
  case h_3 => exact string ['b', '"'] (fun _ => .bytes) (by simp) (fun _ => rfl) found
  case h_4 => exact other closed_raw? ['b', 'r'] (fun _ => .bytes) (by simp) (fun _ => rfl) found
  case h_5 => exact other closed_char? ['b', '\''] (fun _ => .bytes) (by simp) (fun _ => rfl) found
  case h_6 => exact string ['c', '"'] (fun _ => .bytes) (by simp) (fun _ => rfl) found
  case h_7 => exact other closed_raw? ['c', 'r'] (fun _ => .bytes) (by simp) (fun _ => rfl) found
  case h_8 => exact other closed_char? ['\''] .char (by simp) (fun _ => rfl) found
  case h_9 => cases found

theorem read?_local {cs rest : List Char} {value : Literal} (found : read? cs = some (value, rest)) :
    ∃ u, u ≠ [] ∧ cs = u ++ rest ∧ ∀ more, Similar rest more → read? (u ++ more) = some (value, more) := by
  rw [read?] at found
  obtain ⟨⟨value, behind⟩, bare, same⟩ := map_eq_some_iff.mp found
  obtain ⟨rfl, rfl⟩ := mk.inj same
  obtain ⟨u, solid, rfl, again⟩ := closed_bare? bare
  have whole : behind = Number.suffix behind ++ skipSuffix behind :=
    (prefix_iff_eq_append.mp (Number.suffix_prefix behind)).symm
  refine ⟨u ++ Number.suffix behind, by simp [solid], by rw [append_assoc, ← whole], fun more similar => ?_⟩
  have letters : Number.suffix (Number.suffix behind ++ more) = Number.suffix behind := by
    rw [← Number.suffix_similar (similar.append_left (Number.suffix behind)), ← whole]
  rw [append_assoc, read?, again, map_some]
  show some (value, (Number.suffix behind ++ more).drop _) = _
  rw [letters, drop_left]

end Quotation
end LiveMarkup.Expression
