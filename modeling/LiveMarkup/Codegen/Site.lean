import LiveMarkup.Template.Position

/-!
Where template blocks stand in a source text: a name, `!` and an opening brace, outside comments, strings
and character literals.
-/

namespace LiveMarkup.Codegen
open Template (Position)

/-- A spot in a source text: its position, the character before it and the text from it on. -/
structure Spot where
  position : Position
  previous : Option Char
  rest : List Char

namespace Spot

def start (source : List Char) : Spot := ⟨{}, none, source⟩

def skip (spot : Spot) (n : Nat) : Spot :=
  let passed := spot.rest.take n
  ⟨spot.position.pastAll passed, passed.getLast?.or spot.previous, spot.rest.drop n⟩

def charsIn : (bytes : Nat) → List Char → Nat
  | _, [] => 0
  | bytes, c :: rest => if bytes = 0 then 0 else 1 + charsIn (bytes - c.utf8Size) rest

def skipBytes (spot : Spot) (bytes : Nat) : Spot := spot.skip (charsIn bytes spot.rest)

def textTo (spot other : Spot) : List Char := spot.rest.take (spot.rest.length - other.rest.length)

end Spot

namespace Site

def isWordChar (c : Char) : Bool := c.isAlphanum || c == '_'

/-- The length of a block comment, from inside `depth` of them; comments nest. -/
def blockComment : (depth : Nat) → List Char → Nat
  | _, [] => 0
  | depth, '/' :: '*' :: rest => 2 + blockComment (depth + 1) rest
  | depth, '*' :: '/' :: rest => if depth ≤ 1 then 2 else 2 + blockComment (depth - 1) rest
  | depth, _ :: rest => 1 + blockComment depth rest

def string : List Char → Nat
  | [] => 0
  | '\\' :: _ :: rest => 2 + string rest
  | '"' :: _ => 1
  | _ :: rest => 1 + string rest

def rawBody (hashes : Nat) : List Char → Nat
  | [] => 0
  | c :: rest =>
    if c = '"' ∧ rest.take hashes = List.replicate hashes '#' then 1 + hashes else 1 + rawBody hashes rest

/-- The length of a raw string behind its letter; of a raw name, only its hashes. -/
def rawString (cs : List Char) : Nat :=
  let hashes := (cs.takeWhile (· = '#')).length
  match cs.drop hashes with
  | '"' :: body => hashes + 1 + rawBody hashes body
  | _ => hashes

/-- The length of a character literal behind its opening quote; of a lifetime, nothing. -/
def charLiteral : List Char → Nat
  | '\\' :: escaped =>
    let body := escaped.drop 1
    let inside := (body.takeWhile (· ≠ '\'')).length
    1 + (escaped.length - body.length) + inside + (if inside < body.length then 1 else 0)
  | _ :: '\'' :: _ => 2
  | _ => 0

def isSpace (c : Char) : Bool := c == ' ' || c == '\t' || c == '\n' || c == '\x0c' || c == '\r'

/-- The distance from the name to the brace, if a block begins here. -/
def blockHere (name : List Char) (cs : List Char) : Option Nat :=
  if name.isPrefixOf cs then
    match cs.drop name.length with
    | '!' :: rest =>
      let blanks := (rest.takeWhile isSpace).length
      if (rest.drop blanks).head? = some '\x7b' then some (name.length + 1 + blanks) else none
    | _ => none
  else none

def advance (previous : Option Char) (c : Char) (rest : List Char) : Nat :=
  let inWord := (previous.map isWordChar).getD false
  match c, rest with
  | '/', '/' :: _ => 1 + (rest.takeWhile (· ≠ '\n')).length + 1
  | '/', '*' :: rest => 2 + blockComment 1 rest
  | '"', rest => 1 + string rest
  | 'r', next :: _ =>
    if (!inWord || previous == some 'b') && (next == '"' || next == '#') then 1 + rawString rest else 1
  | '\'', rest => 1 + charLiteral rest
  | _, _ => 1

/-- Whether what stands here is skipped whatever the name is. -/
def isSkipped (previous : Option Char) (c : Char) (rest : List Char) : Bool :=
  let inWord := (previous.map isWordChar).getD false
  match c, rest with
  | '/', '/' :: _ => true
  | '/', '*' :: _ => true
  | '"', _ => true
  | 'r', next :: _ => (!inWord || previous == some 'b') && (next == '"' || next == '#')
  | '\'', _ => true
  | _, _ => false

/-- The first block at or behind a spot: where its name and its brace are. The fuel bounds the search. -/
def nextFrom (name : List Char) : Nat → Spot → Option (Spot × Spot)
  | 0, _ => none
  | fuel + 1, spot =>
    match spot.rest with
    | [] => none
    | c :: rest =>
      let inWord := (spot.previous.map isWordChar).getD false
      let here := if isSkipped spot.previous c rest || inWord then none else blockHere name (c :: rest)
      match here with
      | some n => some (spot, spot.skip n)
      | none => nextFrom name fuel (spot.skip (advance spot.previous c rest))

def next (name : List Char) (spot : Spot) : Option (Spot × Spot) := nextFrom name (spot.rest.length + 1) spot

end Site
end LiveMarkup.Codegen
