import LiveMarkup.Expression.Quotation

/-!
Cutting embedded code into tokens. Blanks and comments separate tokens; a documentation comment stands
for the attribute it abbreviates. Brackets must match.
-/

namespace LiveMarkup.Expression
open Text

inductive Lexeme where
  | token (token : Token)
  | opening (delimiter : Delimiter)
  | closing (delimiter : Delimiter)

namespace Lexer

/-- Blanks between tokens: white space and the two direction marks. -/
def isGap (c : Char) : Bool := isBlank c || c == '\u200e' || c == '\u200f'

/-- What is behind a block comment, from inside `depth` more of them; comments nest. -/
def blockComment? : (depth : Nat) → List Char → Option (List Char)
  | _, [] => none
  | depth, '/' :: '*' :: rest => blockComment? (depth + 1) rest
  | depth, '*' :: '/' :: rest => if depth = 0 then some rest else blockComment? (depth - 1) rest
  | depth, _ :: rest => blockComment? depth rest

def startsWith (text : String) (cs : List Char) : Bool := text.toList.isPrefixOf cs

def isLineComment (cs : List Char) : Bool :=
  startsWith "//" cs && (!startsWith "///" cs || startsWith "////" cs) && !startsWith "//!" cs

def isBlockComment (cs : List Char) : Bool :=
  startsWith "/*" cs && (!startsWith "/**" cs || startsWith "/***" cs) && !startsWith "/*!" cs

def skipComment? (cs : List Char) : Option (List Char) :=
  if isLineComment cs then some (cs.dropWhile (· ≠ '\n'))
  else if startsWith "/**/" cs then some (cs.drop 4)
  else if isBlockComment cs then blockComment? 0 (cs.drop 2)
  else none

def hasBareReturn : List Char → Bool
  | [] => false
  | '\r' :: rest => rest.head? ≠ some '\n' || hasBareReturn rest
  | _ :: rest => hasBareReturn rest

/-- A documentation comment: whether it belongs to what encloses it, and what is behind it. -/
def docComment? (cs : List Char) : Option (Bool × List Char) :=
  let line (inner : Bool) (body : List Char) :=
    let rest := body.dropWhile (· ≠ '\n')
    -- a return in front of the line break belongs to it
    if hasBareReturn (body.takeWhile (· ≠ '\n') ++ rest.take 1) then none else some (inner, rest)
  let block (inner : Bool) :=
    (blockComment? 0 (cs.drop 2)).bind fun rest =>
      let body := (cs.take (cs.length - rest.length)).drop 3
      if hasBareReturn body then none else some (inner, rest)
  if startsWith "//!" cs then line true (cs.drop 3)
  else if startsWith "/*!" cs then block true
  else if startsWith "///" cs && !startsWith "////" cs then line false (cs.drop 3)
  else if startsWith "/**" cs && !startsWith "/***" cs then block false
  else none

def docTokens (inner : Bool) : List Lexeme :=
  let doc : List Token := [.ident "doc", .punct '=' false, .literal (.text "")]
  let mark : List Token := if inner then [.punct '#' false, .punct '!' false] else [.punct '#' false]
  (mark ++ [Token.group .bracket doc]).map .token

def punctuation : List Char := "~!@#$%^&*-=+|;:,<.>/?'".toList

def isPunct (cs : List Char) : Bool :=
  !startsWith "//" cs && !startsWith "/*" cs && (cs.head?.map (punctuation.contains ·)).getD false

/-- An identifier at the start of a text; `r#` makes it one whatever it means otherwise. -/
def anyIdent? (cs : List Char) : Option (String × List Char) :=
  let plain (cs : List Char) := match Number.suffix cs with
    | [] => none
    | name => some (name, cs.drop name.length)
  match cs with
  | 'r' :: '#' :: rest =>
    (plain rest).bind fun (name, rest) =>
      if ["_", "super", "self", "Self", "crate"].contains (String.ofList name) then none
      else some ("r#" ++ String.ofList name, rest)
  | _ => (plain cs).map fun (name, rest) => (String.ofList name, rest)

/-- What would begin a quotation is no identifier. -/
def ident? (cs : List Char) : Option (String × List Char) :=
  if ["r\"", "r#\"", "r##", "b\"", "b'", "br\"", "br#", "c\"", "cr\"", "cr#"].any (startsWith · cs) then none
  else anyIdent? cs

def punct? (cs : List Char) : Option (Token × List Char) :=
  match cs with
  | [] => none
  | c :: rest =>
    if !isPunct cs then none
    else if c = '\'' then
      (anyIdent? rest).bind fun (_, after) =>
        if after.head? = some '\'' ∨ (after.head? = some '#' ∧ !startsWith "r#" rest) then none
        else some (.punct c true, rest)
    else some (.punct c (isPunct rest), rest)

def opening? : Char → Option Delimiter
  | '(' => some .paren
  | '[' => some .bracket
  | '\x7b' => some .brace
  | _ => none

def closing? : Char → Option Delimiter
  | ')' => some .paren
  | ']' => some .bracket
  | '\x7d' => some .brace
  | _ => none

def leaf? (cs : List Char) : Option (Token × List Char) :=
  let literal := ((Quotation.read? cs).or (Number.read? cs)).map fun (value, rest) => (Token.literal value, rest)
  let name := (ident? cs).map fun (name, rest) => (Token.ident name, rest)
  (literal.or (punct? cs)).or name

/-- The lexemes of a text. The fuel bounds their number, gaps included. -/
def lexemes? : Nat → List Char → Option (List Lexeme)
  | 0, _ => none
  | _, [] => some []
  | fuel + 1, c :: rest =>
    let cs := c :: rest
    if isGap c then lexemes? fuel rest
    else match skipComment? cs with
      | some rest => lexemes? fuel rest
      | none =>
        match docComment? cs with
        | some (inner, rest) => (lexemes? fuel rest).map (docTokens inner ++ ·)
        | none =>
          match opening? c, closing? c with
          | some d, _ => (lexemes? fuel rest).map (.opening d :: ·)
          | _, some d => (lexemes? fuel rest).map (.closing d :: ·)
          | none, none =>
            (leaf? cs).bind fun (token, rest) => (lexemes? fuel rest).map (.token token :: ·)

/-- Groups the lexemes between brackets, given the tokens so far and the open groups around them, both with the
last one first. -/
def nest? : (tokens : List Token) → (outer : List (Delimiter × List Token)) → List Lexeme → Option (List Token)
  | tokens, [], [] => some tokens.reverse
  | _, _ :: _, [] => none
  | tokens, outer, .token token :: rest => nest? (token :: tokens) outer rest
  | tokens, outer, .opening d :: rest => nest? [] ((d, tokens) :: outer) rest
  | tokens, (d, before) :: outer, .closing d' :: rest =>
    if d = d' then nest? (.group d tokens.reverse :: before) outer rest else none
  | _, [], .closing _ :: _ => none

end Lexer

/-- The tokens of a text, or none when it cannot be cut into tokens. A byte order mark in front is skipped. -/
def tokens? (code : String) : Option (List Token) :=
  let cs := match code.toList with
    | '\ufeff' :: rest => rest
    | cs => cs
  (Lexer.lexemes? (cs.length + 1) cs).bind (Lexer.nest? [] [])

end LiveMarkup.Expression
