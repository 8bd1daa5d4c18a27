import LiveMarkup.Number.Shortest
import LiveMarkup.Text.Blank

/-!
Numbers read from text: integers with an optional sign, and decimals with an optional point and exponent.
-/

namespace LiveMarkup.Number
open Text

def digitsValue (cs : List Char) : Nat := cs.foldl (fun n c => n * 10 + (c.toNat - '0'.toNat)) 0

def natural? (cs : List Char) : Option Nat :=
  if cs.isEmpty || !cs.all Char.isDigit then none else some (digitsValue cs)

def takeSign : List Char → Bool × List Char
  | '-' :: rest => (true, rest)
  | '+' :: rest => (false, rest)
  | cs => (false, cs)

def integer? (cs : List Char) : Option Int :=
  let (negative, rest) := takeSign cs
  (natural? rest).map fun n => if negative then -(n : Int) else n

/-- Digits with an optional point and an optional exponent; there is a digit before the exponent. -/
def decimal? (cs : List Char) : Option Decimal := do
  let (mantissa, exponent) := cs.span fun c => c != 'e' && c != 'E'
  let exponent ← match exponent with
    | [] => some 0
    | _ :: rest => integer? rest
  let (whole, fraction) := mantissa.span (· != '.')
  let fraction := fraction.drop 1
  let digits ← natural? (whole ++ fraction)
  return ⟨digits, exponent - fraction.length⟩

/-- The number nearest to a decimal. Beyond what any format holds the exponent does not matter. -/
def Format.ofDecimal (format : Format) (decimal : Decimal) : Binary :=
  if decimal.digits = 0 then format.nearest 0 1
  else
    let size : Int := (Nat.toDigits 10 decimal.digits).length
    if 400 < decimal.exponent + size then .infinite false
    else if decimal.exponent + size < -400 then format.nearest 0 1
    else match decimal.exponent with
      | .ofNat k => format.nearest (decimal.digits * Nat.pow 10 k) 1
      | .negSucc k => format.nearest decimal.digits (Nat.pow 10 (k + 1))

/-- The number that a text stands for: a decimal or a name of what is not finite, behind an optional sign. -/
def Format.read? (format : Format) (text : String) : Option Binary :=
  let (negative, rest) := takeSign text.toList
  let name := String.ofList rest
  let magnitude :=
    if sameIgnoringCase name "nan" then some .nan
    else if sameIgnoringCase name "inf" || sameIgnoringCase name "infinity" then some (.infinite false)
    else (decimal? rest).map format.ofDecimal
  magnitude.map fun number => if negative then number.negate else number

end LiveMarkup.Number
