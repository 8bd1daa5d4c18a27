import LiveMarkup.Expression.TokenParser

/-!
The recursive parts of the grammar of expressions. Each is parsed by a function that is given the parser of
all of them and so needs no recursion of its own.
-/

namespace LiveMarkup.Expression

abbrev Precedence := Nat

namespace Precedence

def lowest : Precedence := 0
def assignment : Precedence := 1
def range : Precedence := 2
def disjunction : Precedence := 3
def conjunction : Precedence := 4
def comparison : Precedence := 6
def bitOr : Precedence := 7
def bitXor : Precedence := 8
def bitAnd : Precedence := 9
def shift : Precedence := 10
def sum : Precedence := 11
def product : Precedence := 12
def cast : Precedence := 13

end Precedence

/-- The binary operators; one that begins another stands behind it. -/
def operators : List (String × Precedence) :=
  (["+=", "-=", "*=", "/=", "%=", "^=", "&=", "|=", "<<=", ">>="].map (·, Precedence.assignment)) ++
    [("&&", Precedence.conjunction), ("||", Precedence.disjunction), ("<<", Precedence.shift),
      (">>", Precedence.shift), ("==", Precedence.comparison), ("<=", Precedence.comparison),
      ("!=", Precedence.comparison), (">=", Precedence.comparison), ("+", Precedence.sum), ("-", Precedence.sum),
      ("*", Precedence.product), ("/", Precedence.product), ("%", Precedence.product), ("^", Precedence.bitXor),
      ("&", Precedence.bitAnd), ("|", Precedence.bitOr), ("<", Precedence.comparison),
      (">", Precedence.comparison)]

def operator? (tokens : List Token) : Option (String × Precedence) :=
  operators.find? fun (text, _) => TokenParser.seesPunct text tokens

inductive Nonterminal where
  /-- An expression; `structs` says whether a brace behind a path belongs to it. -/
  | expression (structs : Bool)
  /-- Prefix operators and what they apply to. -/
  | unary (structs : Bool)
  /-- What follows a left operand, as far as it binds at least as tightly as `base`. -/
  | climb (left : Expr) (structs : Bool) (base : Precedence)
  /-- The right operand of an operator, from its first part on. -/
  | rightOperand (right : Expr) (structs : Bool) (level : Precedence)
  /-- Calls, fields, indices and the like behind an expression. -/
  | trailers (e : Expr)
  /-- An expression in the place of a statement, which ends behind a block. -/
  | statementExpression
  /-- Statements in braces; `attributes` says whether they may start with inner attributes. -/
  | block (attributes : Bool)
  /-- A type; `plus` says whether a plus sign may join bounds. -/
  | type (plus : Bool)
  | pattern
  /-- Patterns with bars between them and perhaps one in front. -/
  | alternatives
  | item

abbrev Parsers := Nonterminal → TokenParser Expr

end LiveMarkup.Expression
