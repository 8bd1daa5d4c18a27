import LiveMarkup.Template.Code
import LiveMarkup.Template.Error

/-!
The grammar of templates. A parser moves a cursor or fails, and on the way remembers which constructs
were tried and failed furthest into the source: they are what an error names.
-/

namespace LiveMarkup.Template

/-- The furthest position at which a construct was tried and failed, and those constructs. -/
structure Attempts where
  position : Position := {}
  constructs : List Construct := []
  deriving Repr, Inhabited

namespace Attempts

def countAt (attempts : Attempts) (p : Position) : Nat :=
  if p.offset = attempts.position.offset then attempts.constructs.length else 0

/-- Notes that a construct which began at `p` failed, given how many had failed there before it began.
A construct replaces the parts of it that failed where it began, unless just one did, which says more. -/
def fail (attempts : Attempts) (construct : Construct) (p : Position) (before : Nat) : Attempts :=
  if attempts.countAt p = before + 1 then attempts
  else if p.offset = attempts.position.offset then
    { attempts with constructs := attempts.constructs.take before ++ [construct] }
  else if p.offset > attempts.position.offset then ⟨p, [construct]⟩
  else attempts

end Attempts

/-- A parser: from a cursor to a result and the cursor behind it, or to failure. -/
abbrev Parser := StateT Cursor (OptionT (StateM Attempts))

namespace Parser

def construct {α : Type} (name : Construct) (body : Parser α) : Parser α := fun cursor attempts =>
  let before := attempts.countAt cursor.position
  match body cursor attempts with
  | (some result, after) => (some result, after)
  | (none, after) => (none, after.fail name cursor.position before)

def position : Parser Position := do return (← get).position

def rest : Parser (List Char) := do return (← get).rest

def takeChars (n : Nat) : Parser String := do
  let cursor ← get
  set (cursor.skip n)
  return String.ofList (cursor.rest.take n)

def literal (text : String) : Parser Unit := do
  let wanted := text.toList
  if wanted.isPrefixOf (← rest) then discard (takeChars wanted.length) else failure

def whileChars (p : Char → Bool) : Parser String := do takeChars ((← rest).takeWhile p).length

def isSpace (c : Char) : Bool := c == ' ' || c == '\t' || c == '\r' || c == '\n'

def spaces : Parser Unit := discard (whileChars isSpace)

def isNameStart (c : Char) : Bool := c.isAlpha || c == '_'

def isNamePart (c : Char) : Bool := c.isAlphanum || c == '-' || c == '_' || c == '.' || c == ':'

def name : Parser String := do
  match ← rest with
  | c :: _ => if isNameStart c then whileChars isNamePart else failure
  | [] => failure

def many {α : Type} (item : Parser α) : Nat → Parser (List α)
  | 0 => pure []
  | fuel + 1 => (do
      let first ← item
      let others ← many item fuel
      return first :: others) <|> pure []

def codeToClose : Parser String := do
  match Code.lengthToClose? 0 (← rest) with
  | none => failure
  | some n =>
    let code ← takeChars n
    discard (takeChars 1)
    return code

end Parser

inductive WrittenAttribute where
  | flag (name : String) (span : Span)
  | quoted (name text : String) (span : Span)
  | braced (name code : String) (span : Span)
  | spread (code : String) (span : Span)
  deriving Repr

/-- A template as it is written, with the end tag each element was given. -/
inductive Written where
  | text (raw : String) (span : Span)
  | expression (code : String) (span : Span)
  | fragment (children : List Written) (span : Span)
  | selfClosed (tag : String) (attributes : List WrittenAttribute) (span : Span)
  | element (tag : String) (attributes : List WrittenAttribute) (children : List Written)
      (close : String) (closeSpan span : Span)
  deriving Repr

namespace Grammar
open Template.Parser

def tagName : Parser String := construct .tagName name

def spreadAttribute : Parser WrittenAttribute := construct .spreadAttribute do
  let start ← position
  literal "\x7b"
  spaces
  literal "..."
  let code ← codeToClose
  return .spread code ((← get).spanFrom start)

def attributeString : Parser String := construct .attributeString do
  match ← rest with
  | '"' :: _ =>
    literal "\""
    let text ← whileChars (· ≠ '"')
    literal "\""
    return text
  | '\'' :: _ =>
    literal "'"
    let text ← whileChars (· ≠ '\'')
    literal "'"
    return text
  | _ => failure

def attributeExpression : Parser String := construct .attributeExpression do
  literal "\x7b"
  codeToClose

/-- The value behind an equals sign, as a function of the attribute's name. -/
def attributeValue : Parser (String → Span → WrittenAttribute) := do
  spaces
  literal "="
  spaces
  (do let text ← attributeString
      return fun name span => .quoted name text span) <|>
    (do let code ← attributeExpression
        return fun name span => .braced name code span)

def namedAttribute : Parser WrittenAttribute := construct .namedAttribute do
  let start ← position
  let name ← construct .attributeName name
  let make ← attributeValue <|> pure fun name span => .flag name span
  return make name ((← get).spanFrom start)

def attributeItem : Parser WrittenAttribute := do
  spaces
  spreadAttribute <|> namedAttribute

def expression : Parser Written := construct .expression do
  let start ← position
  literal "\x7b"
  let code ← codeToClose
  return .expression code ((← get).spanFrom start)

def isTextChar (c : Char) : Bool := c != '<' && c != '\x7b' && c != '\x7d'

def text : Parser Written := construct .text do
  let start ← position
  let raw ← whileChars isTextChar
  if raw.isEmpty then failure else return .text raw ((← get).spanFrom start)

def fragment (content : Parser (List Written)) : Parser Written := construct .fragment do
  let start ← position
  literal "<>"
  let children ← content
  literal "</>"
  return .fragment children ((← get).spanFrom start)

def closeTag : Parser (String × Span) := construct .closeTag do
  let start ← position
  literal "</"
  let tag ← tagName
  spaces
  literal ">"
  return (tag, (← get).spanFrom start)

/-- What is behind the attributes of an element that begins at `start`. -/
def elementEnd (content : Parser (List Written)) (start : Position) (tag : String) (attributes : List WrittenAttribute) :
    Parser Written :=
  (do construct .selfClose (literal "/>")
      return .selfClosed tag attributes ((← get).spanFrom start)) <|>
    (do literal ">"
        let children ← content
        let (close, closeSpan) ← closeTag
        return .element tag attributes children close closeSpan ((← get).spanFrom start))

def element (content : Parser (List Written)) : Parser Written := construct .element do
  let start ← position
  literal "<"
  let tag ← tagName
  let attributes ← many attributeItem ((← rest).length + 1)
  spaces
  elementEnd content start tag attributes

def node (content : Parser (List Written)) : Parser Written :=
  fragment content <|> element content <|> expression <|> text

/-- Nodes, as many as there are. The fuel bounds their number and their depth. -/
def nodes : Nat → Parser (List Written)
  | 0 => pure []
  | fuel + 1 => (do
      let first ← node (nodes fuel)
      let others ← nodes fuel
      return first :: others) <|> pure []

/-- Every node takes a character, so that its length is fuel enough for a text. -/
def content : Parser (List Written) := do nodes ((← rest).length + 1)

def template : Parser (List Written) := construct .template do
  let roots ← content
  construct .endOfInput (do if (← rest).isEmpty then pure () else failure)
  return roots

def viewBlock : Parser (List Written) := construct .viewBlock do
  literal "\x7b"
  let roots ← content
  literal "\x7d"
  return roots

end Grammar

/-- Runs a parser over a whole text: the result with the cursor behind it, or where and what was expected. -/
def Parser.parse {α : Type} (parser : Parser α) (source : String) : Except Attempts (α × Cursor) :=
  match parser (.ofText source) {} with
  | (some result, _) => .ok result
  | (none, attempts) => .error attempts

end LiveMarkup.Template
