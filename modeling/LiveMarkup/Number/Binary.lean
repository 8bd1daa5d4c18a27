/-!
Binary floating point numbers as exact data: a number is a mantissa times a power of two. A format bounds both,
and every ratio has one nearest number in it.
-/

namespace LiveMarkup.Number

/-- How many bits mantissas have, and the powers of two that they are multiplied by. -/
structure Format where
  precision : Nat
  leastExponent : Int
  greatestExponent : Int
  deriving Repr, BEq, DecidableEq

namespace Format

/-- Numbers of 32 bits. -/
def single : Format := ⟨24, -149, 104⟩

/-- Numbers of 64 bits. -/
def double : Format := ⟨53, -1074, 971⟩

end Format

/-- A floating point number; a finite one is the mantissa times two to the exponent. -/
inductive Binary where
  | nan
  | infinite (negative : Bool)
  | finite (negative : Bool) (mantissa : Nat) (exponent : Int)
  deriving Repr, DecidableEq

namespace Binary

def negate : Binary → Binary
  | .nan => .nan
  | .infinite negative => .infinite !negative
  | .finite negative mantissa exponent => .finite (!negative) mantissa exponent

/-- Numerical equality: zeros are equal whatever their sign and no number is equal to `nan`. Other numbers are
in lowest form for their format, so that equal numbers have equal parts. -/
def equal : Binary → Binary → Bool
  | .infinite a, .infinite b => a == b
  | .finite n m e, .finite n' m' e' => (m == 0 && m' == 0) || (n == n' && m == m' && e == e')
  | _, _ => false

end Binary

/-- A ratio rounded to an integer, a half to the even neighbour. -/
def roundRatio (num den : Nat) : Nat :=
  let q := num / den
  let r := num % den
  if 2 * r < den then q else if den < 2 * r then q + 1 else if q % 2 = 0 then q else q + 1

def scaleRatio (num den : Nat) (exponent : Int) : Nat × Nat :=
  match exponent with
  | .ofNat n => (num, den * Nat.pow 2 n)
  | .negSucc n => (num * Nat.pow 2 (n + 1), den)

def floorLog2 (num den : Nat) : Int :=
  let guess : Int := (Nat.log2 num : Int) - (Nat.log2 den : Int)
  let (n, d) := scaleRatio num den guess
  if d ≤ n then guess else guess - 1

def Format.nearest (format : Format) (num den : Nat) : Binary :=
  if num = 0 then .finite false 0 format.leastExponent
  else
    let exponent := max format.leastExponent (floorLog2 num den - (format.precision - 1 : Int))
    let (n, d) := scaleRatio num den exponent
    let mantissa := roundRatio n d
    let (mantissa, exponent) :=
      if mantissa = Nat.pow 2 format.precision then (Nat.pow 2 (format.precision - 1), exponent + 1) else (mantissa, exponent)
    if format.greatestExponent < exponent then .infinite false else .finite false mantissa exponent

end LiveMarkup.Number
