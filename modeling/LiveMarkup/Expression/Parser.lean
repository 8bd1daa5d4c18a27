import LiveMarkup.Expression.Grammar.Statements
import LiveMarkup.Expression.Lexer

/-!
The parser of embedded expressions.
-/

namespace LiveMarkup.Expression

/-- One step of the grammar, given the parser of its recursive parts. -/
def Nonterminal.step (parsers : Parsers) : Nonterminal → TokenParser Expr
  | .expression structs => Grammar.expression parsers structs
  | .unary structs => Grammar.unary parsers structs
  | .climb left structs base => Grammar.climb parsers left structs base
  | .rightOperand right structs level => Grammar.rightOperand parsers right structs level
  | .trailers e => Grammar.trailers parsers e
  | .statementExpression => Grammar.statementExpression parsers
  | .block attributes => Grammar.block parsers attributes
  | .type plus => Grammar.type parsers plus
  | .pattern => Grammar.pattern parsers
  | .alternatives => Grammar.alternatives parsers
  | .item => Grammar.item parsers

def parsers : Nat → Parsers
  | 0 => fun _ => failure
  | fuel + 1 => fun nonterminal => nonterminal.step (parsers fuel)

def stepsPerToken : Nat := 12

def parse? (code : String) : Option Expr :=
  (tokens? code).bind fun tokens =>
    match parsers (stepsPerToken * (Token.size.sizes tokens + 1)) (.expression true) tokens with
    | some (e, []) => some e
    | _ => none

end LiveMarkup.Expression
