import LiveMarkup.Expression.Number

/-!
Literals in quotes: characters and strings, plain, raw, of bytes and null-terminated. Each reader starts
behind the opening mark and gives the value and the text behind the closing mark.
-/

namespace LiveMarkup.Expression.Quotation
open Text Markup

inductive Kind where
  | text | bytes | terminated
  deriving BEq, DecidableEq

def hexValue? (c : Char) : Option Nat :=
  (Entity.digitValue c).bind fun d => if d < 16 then some d else none

def hexPair? : List Char → Option (Nat × List Char)
  | a :: b :: rest => do return ((← hexValue? a) * 16 + (← hexValue? b), rest)
  | _ => none

/-- Up to six hexadecimal digits in braces, with gaps behind the first. -/
def bracedDigits? : (count value : Nat) → List Char → Option (Char × List Char)
  | _, _, [] => none
  | count, value, c :: rest =>
    if c = '_' ∧ 0 < count then bracedDigits? count value rest
    else if c = '\x7d' ∧ 0 < count then (Entity.scalar? value).map (·, rest)
    else match hexValue? c with
      | some d => if count = 6 then none else bracedDigits? (count + 1) (value * 16 + d) rest
      | none => none

def bracedCode? : List Char → Option (Char × List Char)
  | '\x7b' :: rest => bracedDigits? 0 0 rest
  | _ => none

def escape? (kind : Kind) : List Char → Option (Char × List Char)
  | 'x' :: rest =>
    (hexPair? rest).bind fun (n, rest) =>
      if kind = .text ∧ 0x80 ≤ n then none
      else if kind = .terminated ∧ n = 0 then none
      else some (Char.ofNat n, rest)
  | 'u' :: rest =>
    if kind = .bytes then none
    else (bracedCode? rest).bind fun (c, rest) => if kind = .terminated ∧ c = '\x00' then none else some (c, rest)
  | 'n' :: rest => some ('\n', rest)
  | 'r' :: rest => some ('\r', rest)
  | 't' :: rest => some ('\t', rest)
  | '\\' :: rest => some ('\\', rest)
  | '\'' :: rest => some ('\'', rest)
  | '"' :: rest => some ('"', rest)
  | '0' :: rest => if kind = .terminated then none else some ('\x00', rest)
  | _ => none

def continuation? : List Char → Option (List Char)
  | '\r' :: '\n' :: rest => continuation? rest
  | '\r' :: _ => none
  | '\n' :: rest => continuation? rest
  | ' ' :: rest => continuation? rest
  | '\t' :: rest => continuation? rest
  | [] => none
  | rest => some rest

def admits (kind : Kind) (c : Char) : Bool :=
  match kind with
  | .text => true
  | .bytes => isAscii c
  | .terminated => c != '\x00'

/-- A string up to its closing quote. The fuel bounds its length. -/
def string? (kind : Kind) : Nat → List Char → Option (List Char × List Char)
  | 0, _ => none
  | _, [] => none
  | fuel + 1, c :: rest =>
    let push (d : Char) (rest : List Char) := (string? kind fuel rest).map fun (value, rest) => (d :: value, rest)
    if c = '"' then some ([], rest)
    else if c = '\r' then
      match rest with
      | '\n' :: rest => push '\n' rest
      | _ => none
    else if c = '\\' then
      if rest.head? = some '\n' ∨ rest.head? = some '\r' then (continuation? rest).bind (string? kind fuel)
      else (escape? kind rest).bind fun (d, rest) => push d rest
    else if admits kind c then push c rest
    else none

def rawString? (kind : Kind) (hashes : Nat) : List Char → Option (List Char × List Char)
  | [] => none
  | c :: rest =>
    if c = '"' ∧ rest.take hashes = List.replicate hashes '#' then some ([], rest.drop hashes)
    else if c = '\r' ∧ rest.head? ≠ some '\n' then none
    else if admits kind c then (rawString? kind hashes rest).map fun (value, rest) => (c :: value, rest)
    else none

def raw? (kind : Kind) (cs : List Char) : Option (List Char × List Char) :=
  let hashes := (cs.takeWhile (· = '#')).length
  match cs.drop hashes with
  | '"' :: body => if hashes ≤ 255 then rawString? kind hashes body else none
  | _ => none

def char? (kind : Kind) : List Char → Option (Char × List Char)
  | '\\' :: rest => (escape? kind rest).bind fun (c, rest) =>
    match rest with
    | '\'' :: rest => some (c, rest)
    | _ => none
  | c :: '\'' :: rest => if admits kind c then some (c, rest) else none
  | _ => none

def skipSuffix (cs : List Char) : List Char := cs.drop (Number.suffix cs).length

/-- The quotation at the start of a text and what is behind it. -/
def bare? (cs : List Char) : Option (Literal × List Char) :=
  let fuel := cs.length
  match cs with
  | '"' :: body => (string? .text fuel body).map fun (value, rest) => (.text (String.ofList value), rest)
  | 'r' :: body => (raw? .text body).map fun (value, rest) => (.text (String.ofList value), rest)
  | 'b' :: '"' :: body => (string? .bytes fuel body).map fun (_, rest) => (.bytes, rest)
  | 'b' :: 'r' :: body => (raw? .bytes body).map fun (_, rest) => (.bytes, rest)
  | 'b' :: '\'' :: body => (char? .bytes body).map fun (_, rest) => (.bytes, rest)
  | 'c' :: '"' :: body => (string? .terminated fuel body).map fun (_, rest) => (.bytes, rest)
  | 'c' :: 'r' :: body => (raw? .terminated body).map fun (_, rest) => (.bytes, rest)
  | '\'' :: body => (char? .text body).map fun (value, rest) => (.char value, rest)
  | _ => none

def read? (cs : List Char) : Option (Literal × List Char) :=
  (bare? cs).map fun (value, rest) => (value, skipSuffix rest)

end LiveMarkup.Expression.Quotation
