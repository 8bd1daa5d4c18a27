import LiveMarkup.Expression.Token
import LiveMarkup.Markup.Entity
import LiveMarkup.Text.Identifier

/-!
Number literals: where they end and what their spelling says. A literal is an integer unless it has a
point or an exponent; letters behind the digits are its suffix, whatever they are.
-/

namespace LiveMarkup.Expression.Number
open Text Markup

def isDigitOrGap (c : Char) : Bool := c.isDigit || c == '_'

def suffix (cs : List Char) : List Char :=
  match cs with
  | c :: rest => if isIdentifierStart c then c :: rest.takeWhile isIdentifierPart else []
  | [] => []

/-- The length of an exponent with a digit, behind its letter. -/
def exponentLength? (cs : List Char) : Option Nat :=
  let (signed, body) := match cs with
    | '_' :: _ =>
      let gap := (cs.takeWhile (· == '_')).length
      match cs.drop gap with
      | '+' :: rest => (gap + 1, rest)
      | '-' :: rest => (gap + 1, rest)
      | rest => (gap, rest)
    | '+' :: rest => (1, rest)
    | '-' :: rest => (1, rest)
    | _ => (0, cs)
  let digits := body.takeWhile isDigitOrGap
  if digits.any Char.isDigit then some (signed + digits.length) else none

def exponentBehind? (n : Nat) (rest : List Char) (without : Option Nat) : Option Nat :=
  match rest with
  | 'e' :: tail => ((exponentLength? tail).map (n + 1 + ·)).or without
  | 'E' :: tail => ((exponentLength? tail).map (n + 1 + ·)).or without
  | _ => without

def floatBehind? (cs : List Char) (whole : Nat) : Option Nat :=
  match cs.drop whole with
  | '.' :: rest =>
    if (rest.head?.map fun c => c == '.' || isIdentifierStart c).getD false then none
    else
      let n := whole + 1 + (rest.takeWhile isDigitOrGap).length
      exponentBehind? n (cs.drop n) (some n)
  | rest => exponentBehind? whole rest none

/-- The length of a float's digits, point and exponent; none when there is neither point nor exponent. -/
def floatLength? (cs : List Char) : Option Nat :=
  if (cs.head?.map Char.isDigit).getD false then floatBehind? cs (cs.takeWhile isDigitOrGap).length else none

/-- The base that an integer's spelling announces and the digits behind it. -/
def base (cs : List Char) : Nat × List Char :=
  match cs with
  | '0' :: 'x' :: rest => (16, rest)
  | '0' :: 'o' :: rest => (8, rest)
  | '0' :: 'b' :: rest => (2, rest)
  | _ => (10, cs)

/-- The length and value of an integer's digits. A decimal digit too large for the base is an error, a letter
ends the digits. -/
def integerDigits? (base : Nat) : (length value : Nat) → (empty : Bool) → List Char → Option (Nat × Nat)
  | length, value, empty, [] => if empty then none else some (length, value)
  | length, value, empty, c :: rest =>
    if c = '_' then
      if empty && base == 10 then none else integerDigits? base (length + 1) value empty rest
    else
      let letter := ('a' ≤ c && c ≤ 'f') || ('A' ≤ c && c ≤ 'F')
      let finished := if empty then none else some (length, value)
      if c.isDigit || letter then
        match Entity.digitValue c with
        | some d =>
          if d < base then integerDigits? base (length + 1) (value * base + d) false rest
          else if c.isDigit then none
          else finished
        | none => finished
      else finished

/-- The digits of a float's spelling: gaps and a plus sign go, the exponent's letter is small. -/
def floatDigits (spelling : List Char) : String :=
  String.ofList ((spelling.filter fun c => c != '_' && c != '+').map fun c => if c = 'E' then 'e' else c)

/-- A word may not go on behind a number. -/
def breaks (rest : List Char) : Bool := !(rest.head?.map isIdentifierPart).getD false

def float? (cs : List Char) : Option (Literal × List Char) :=
  (floatLength? cs).bind fun n =>
    let letters := suffix (cs.drop n)
    let rest := cs.drop (n + letters.length)
    let spelling := cs.take n
    if breaks rest then
      some (.float (floatDigits spelling) (String.ofList letters) (String.ofList (spelling ++ letters)), rest)
    else none

def integer? (cs : List Char) : Option (Literal × List Char) :=
  if (cs.head?.map Char.isDigit).getD false then
    let (base, digits) := base cs
    (integerDigits? base 0 0 true digits).bind fun (n, value) =>
      let letters := suffix (digits.drop n)
      let rest := digits.drop (n + letters.length)
      if breaks rest then some (.int value (String.ofList letters), rest) else none
  else none

def read? (cs : List Char) : Option (Literal × List Char) := (float? cs).or (integer? cs)

end LiveMarkup.Expression.Number
