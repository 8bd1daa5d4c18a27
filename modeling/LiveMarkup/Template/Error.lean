import LiveMarkup.Template.Position

/-!
Why a template is refused. An error is a cause and the line and column at which it shows; the wording of
each cause stands in `Cause.message`.
-/

namespace LiveMarkup.Template

/-- The constructs a reader can be said to expect, in the order in which they are listed. -/
inductive Construct where
  | endOfInput | template | viewBlock | fragment | element | selfClose | closeTag | tagName | spreadAttribute
  | namedAttribute | attributeName | attributeString | doubleQuoted | singleQuoted | attributeExpression
  | expression | text | expressionCode
  deriving Repr, BEq, DecidableEq, Inhabited

namespace Construct

def all : List Construct :=
  [.endOfInput, .template, .viewBlock, .fragment, .element, .selfClose, .closeTag, .tagName, .spreadAttribute,
    .namedAttribute, .attributeName, .attributeString, .doubleQuoted, .singleQuoted, .attributeExpression,
    .expression, .text, .expressionCode]

def name : Construct → String
  | .endOfInput => "EOI"
  | .template => "template"
  | .viewBlock => "view_block"
  | .fragment => "fragment"
  | .element => "element"
  | .selfClose => "self_close"
  | .closeTag => "close_tag"
  | .tagName => "tag_name"
  | .spreadAttribute => "spread_attr"
  | .namedAttribute => "named_attr"
  | .attributeName => "attr_name"
  | .attributeString => "attr_string"
  | .doubleQuoted => "dq_text"
  | .singleQuoted => "sq_text"
  | .attributeExpression => "attr_expr"
  | .expression => "expression"
  | .text => "text"
  | .expressionCode => "expr_code"

def listed (constructs : List Construct) : List Construct := all.filter (constructs.contains ·)

def enumerate : List String → String
  | [] => ""
  | [a] => a
  | [a, b] => a ++ " or " ++ b
  | names => ", ".intercalate names.dropLast ++ ", or " ++ names.getLastD ""

end Construct

inductive Cause where
  /-- None of these constructs begins here. -/
  | expected (constructs : List Construct)
  /-- An element is closed under another name. -/
  | mismatchedClose (tag found : String)
  /-- A void element has children. -/
  | voidChildren (tag : String)
  /-- An attribute that takes code has none. -/
  | expressionRequired (name : String)
  /-- The part of an attribute's name before the colon is not known. -/
  | unknownNamespace (space name : String)
  /-- Embedded code is not an expression. -/
  | invalidExpression (code : String)
  /-- A block is not closed. -/
  | unclosedBlock (keyword : String)
  deriving Repr, BEq, DecidableEq

structure CompileError where
  cause : Cause
  line : Nat
  column : Nat
  deriving Repr, BEq, DecidableEq

namespace CompileError

def location (error : CompileError) : String := toString error.line ++ ":" ++ toString error.column

def syntaxMessage (error : CompileError) (what : String) : String :=
  "syntax error at " ++ error.location ++ ": " ++ what

/-- The error as it is shown. The parser of embedded code adds its own words to the last cause but one. -/
def message (error : CompileError) : String :=
  match error.cause with
  | .expected constructs =>
    error.syntaxMessage ("expected " ++ Construct.enumerate ((Construct.listed constructs).map Construct.name))
  | .mismatchedClose tag found =>
    error.syntaxMessage ("expected `</" ++ tag ++ ">`, found `</" ++ found ++ ">`")
  | .voidChildren tag => error.syntaxMessage ("void element `<" ++ tag ++ ">` cannot have children")
  | .expressionRequired name => error.syntaxMessage ("`" ++ name ++ "` expects an expression")
  | .unknownNamespace space name =>
    "unknown attribute namespace `" ++ space ++ ":` in `" ++ name ++ "` at " ++ error.location
  | .invalidExpression code => "invalid expression `" ++ code ++ "` at " ++ error.location
  | .unclosedBlock keyword => "unclosed `" ++ keyword ++ "!` block starting at " ++ error.location

def ofSpan (cause : Cause) (span : Span) : CompileError := ⟨cause, span.start.line, span.start.column⟩

def offset (error : CompileError) (line column : Nat) : CompileError :=
  { error with
    line := error.line + line - 1
    column := if error.line = 1 then error.column + column - 1 else error.column }

end CompileError
end LiveMarkup.Template
