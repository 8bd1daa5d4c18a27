import LiveMarkup.Expression.Token

/-!
Embedded expressions, as far as they are looked at: literals, paths, calls, closures and how far the rest
contains further expressions. Types, patterns and statements are kept as the expressions inside them.
-/

namespace LiveMarkup.Expression

/-- A part of a path between `::`; `generic` says that arguments in angle brackets or parentheses follow. -/
structure Segment where
  name : String
  generic : Bool := false
  deriving Repr, BEq, DecidableEq

structure Path where
  /-- Whether the path starts with `::`. -/
  rooted : Bool
  segments : List Segment
  deriving Repr, BEq, DecidableEq

namespace Path

def isPlain (path : Path) : Bool := path.segments.all (!·.generic)

def text? (path : Path) : Option String :=
  if path.isPlain then
    some ((if path.rooted then "::" else "") ++ "::".intercalate (path.segments.map Segment.name))
  else none

end Path

inductive Expr where
  | literal (value : Literal)
  /-- A path and the expressions in its arguments. -/
  | path (path : Path) (parts : List Expr)
  | negate (operand : Expr)
  | paren (inner : Expr)
  | call (function : Expr) (arguments : List Expr)
  | methodCall (parts : List Expr)
  /-- An invocation by name and `!`, whose content is not looked at; `braced` says that it stands in braces. -/
  | invocation (braced : Bool)
  | closure
  | range (parts : List Expr)
  /-- Two operands; `comparison` says that the operator compares them. -/
  | binary (comparison : Bool) (left right : Expr)
  /-- An expression that is a statement without a semicolon: a block, a loop, a branching. -/
  | statement (parts : List Expr)
  /-- An expression and what is called in the attributes in front of it. -/
  | attributed (attributes : List Expr) (inner : Expr)
  /-- Any other construct, and what it consists of. -/
  | compound (parts : List Expr)
  deriving Repr, Inhabited

namespace Expr

def isRange : Expr → Bool
  | .range _ => true
  | _ => false

def isComparison : Expr → Bool
  | .binary comparison _ _ => comparison
  | _ => false

/-- Whether something must separate this expression from the next arm of a branching. -/
def needsComma : Expr → Bool
  | .statement _ => false
  | .attributed _ inner => needsComma inner
  | _ => true

def needsSemicolon : Expr → Bool
  | .invocation braced => !braced
  | e => e.needsComma

/-- The expression behind its attributes. -/
def bare : Expr → Expr
  | .attributed _ inner => inner.bare
  | e => e

def isClosure : Expr → Bool
  | .closure => true
  | _ => false

/-- Whether evaluating this makes a call; calls in closures are made later, by others, and the attributes of a closure
are not looked at either. -/
def makesCall : Expr → Bool
  | .literal _ => false
  | .path _ parts => anyCall parts
  | .negate operand => makesCall operand
  | .paren inner => makesCall inner
  | .call _ _ => true
  | .methodCall _ => true
  | .invocation _ => true
  | .closure => false
  | .range parts => anyCall parts
  | .binary _ left right => makesCall left || makesCall right
  | .statement parts => anyCall parts
  | .attributed attributes inner => !inner.bare.isClosure && anyCall attributes || makesCall inner
  | .compound parts => anyCall parts
where
  anyCall : List Expr → Bool
    | [] => false
    | e :: rest => makesCall e || anyCall rest

/-- Attributes are kept where something is called in them. -/
def withAttributes (attributes : List Expr) (e : Expr) : Expr :=
  if attributes.any makesCall then .attributed attributes e else e

end Expr
end LiveMarkup.Expression
