import LiveMarkup.Number.Binary

/-!
The fewest decimal digits that read back as a number. For one digit after the other the two neighbours of the number
on that decimal grid are tried; the first grid on which one of them lies close enough to the number is taken, and
of two such neighbours the nearer, the upper one when both are equally near.
-/

namespace LiveMarkup.Number

structure Decimal where
  digits : Nat
  exponent : Int
  deriving Repr, BEq, DecidableEq

structure Ratio where
  num : Int
  den : Nat
  deriving Repr

namespace Ratio

def le (a b : Ratio) : Bool := a.num * b.den ≤ b.num * a.den

def lt (a b : Ratio) : Bool := a.num * b.den < b.num * a.den

def ofBinary (n : Int) (exponent : Int) : Ratio :=
  match exponent with
  | .ofNat k => ⟨n * Int.pow 2 k, 1⟩
  | .negSucc k => ⟨n, Nat.pow 2 (k + 1)⟩

def ofDecimal (n : Int) (exponent : Int) : Ratio :=
  match exponent with
  | .ofNat k => ⟨n * Int.pow 10 k, 1⟩
  | .negSucc k => ⟨n, Nat.pow 10 (k + 1)⟩

/-- How often a power of ten goes into a ratio that is not negative. -/
def quotient (a : Ratio) (exponent : Int) : Nat :=
  match exponent with
  | .ofNat k => a.num.toNat / (a.den * Nat.pow 10 k)
  | .negSucc k => a.num.toNat * Nat.pow 10 (k + 1) / a.den

def sub (a b : Ratio) : Ratio := ⟨a.num * b.den - b.num * a.den, a.den * b.den⟩

end Ratio

/-- The ratios that round to a number: from `low` to `high`, the ends included or not. -/
structure Interval where
  low : Ratio
  high : Ratio
  closed : Bool
  deriving Repr

def Interval.holds (interval : Interval) (a : Ratio) : Bool :=
  if interval.closed then interval.low.le a && a.le interval.high
  else interval.low.lt a && a.lt interval.high

/-- The ratios that round to a positive number. Below a power of two the numbers are twice as dense. -/
def Format.interval (format : Format) (mantissa : Nat) (exponent : Int) : Interval :=
  let low :=
    if mantissa = Nat.pow 2 (format.precision - 1) && format.leastExponent < exponent then
      Ratio.ofBinary (4 * mantissa - 1) (exponent - 2)
    else Ratio.ofBinary (2 * mantissa - 1) (exponent - 1)
  ⟨low, Ratio.ofBinary (2 * mantissa + 1) (exponent - 1), mantissa % 2 = 0⟩

/-- The neighbour of a ratio on a decimal grid that lies in an interval, the nearer one if both do. -/
def onGrid? (interval : Interval) (a : Ratio) (exponent : Int) : Option Decimal :=
  let below := a.quotient exponent
  let lower := Ratio.ofDecimal below exponent
  let upper := Ratio.ofDecimal (below + 1) exponent
  match interval.holds lower && 0 < below, interval.holds upper with
  | true, true => if (upper.sub a).le (a.sub lower) then some ⟨below + 1, exponent⟩ else some ⟨below, exponent⟩
  | true, false => some ⟨below, exponent⟩
  | false, true => some ⟨below + 1, exponent⟩
  | false, false => none

def firstOnGrid (interval : Interval) (a : Ratio) : (fuel : Nat) → (exponent : Int) → Decimal
  | 0, exponent => ⟨a.quotient exponent, exponent⟩
  | fuel + 1, exponent =>
    match onGrid? interval a exponent with
    | some decimal => decimal
    | none => firstOnGrid interval a fuel (exponent - 1)

/-- The power of ten of a positive ratio's first digit, at most `fuel` powers below or above a guess. -/
def firstDigit (a : Ratio) : (fuel : Nat) → (exponent : Int) → Int
  | 0, exponent => exponent
  | fuel + 1, exponent =>
    let q := a.quotient exponent
    if q = 0 then firstDigit a fuel (exponent - 1)
    else if 10 ≤ q then firstDigit a fuel (exponent + 1)
    else exponent

/-- The shortest decimal that reads back as a positive number. Seventeen digits are always enough. -/
def Format.shortest (format : Format) (mantissa : Nat) (exponent : Int) : Decimal :=
  let a := Ratio.ofBinary mantissa exponent
  let lead := firstDigit a 700 ((exponent + (Nat.log2 mantissa : Int)) * 3 / 10)
  firstOnGrid (format.interval mantissa exponent) a 20 lead

def Decimal.positional (decimal : Decimal) : String :=
  let digits := Nat.toDigits 10 decimal.digits
  match decimal.exponent with
  | .ofNat k => String.ofList (digits ++ List.replicate k '0')
  | .negSucc k =>
    let places := k + 1
    let padded := List.replicate (places + 1 - digits.length) '0' ++ digits
    let whole := padded.take (padded.length - places)
    let fraction := padded.drop (padded.length - places)
    let fraction := (fraction.reverse.dropWhile (· == '0')).reverse
    if fraction.isEmpty then String.ofList whole else String.ofList (whole ++ '.' :: fraction)

/-- The text of a number: the shortest digits that read back, never with an exponent. -/
def Format.text (format : Format) : Binary → String
  | .nan => "NaN"
  | .infinite negative => if negative then "-inf" else "inf"
  | .finite negative mantissa exponent =>
    (if negative then "-" else "") ++
      if mantissa = 0 then "0" else (format.shortest mantissa exponent).positional

end LiveMarkup.Number
