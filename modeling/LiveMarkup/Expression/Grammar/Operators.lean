import LiveMarkup.Expression.Grammar.Patterns
import LiveMarkup.Expression.Number

/-!
Expressions: operators by precedence, what may follow an operand, and the operands themselves.
-/

namespace LiveMarkup.Expression.Grammar
open TokenParser

def nextPrecedence (tokens : List Token) : Precedence :=
  match operator? tokens with
  | some (_, level) => level
  | none =>
    if seesPunct "=" tokens && !seesPunct "=>" tokens then Precedence.assignment
    else if seesPunct ".." tokens then Precedence.range
    else if seesWord "as" tokens then Precedence.cast
    else Precedence.lowest

def operand (parsers : Parsers) (structs : Bool) (level : Precedence) : TokenParser Expr := do
  let first ← parsers (.unary structs)
  parsers (.rightOperand first structs level)

/-- Lets a right operand grow while what follows binds more tightly. -/
def rightOperand (parsers : Parsers) (right : Expr) (structs : Bool) (level : Precedence) : TokenParser Expr := do
  let tokens ← get
  let next := nextPrecedence tokens
  if next > level || (next == level && level == Precedence.assignment) then
    let grown ← parsers (.climb right structs next)
    if (← get).length = tokens.length then return grown
    parsers (.rightOperand grown structs level)
  else return right

def endsRange (structs : Bool) (tokens : List Token) : Bool :=
  tokens.isEmpty || seesPunct "," tokens || seesPunct ";" tokens ||
    (seesPunct "." tokens && !seesPunct ".." tokens) || seesPunct "?" tokens || seesPunct "=>" tokens ||
    (!structs && seesGroup .brace tokens) ||
    ["=", "+", "/", "%", "^", ">", "<=", "!=", "-=", "*=", "&=", "|=", "<<="].any (seesPunct · tokens) ||
    seesWord "as" tokens

def rangeTail (parsers : Parsers) (structs : Bool) : TokenParser (List Expr) := do
  if ← sees (seesPunct "...") then failure
  let closed ← if ← punct? "..=" then pure true
    else do
      punct ".."
      pure false
  if !closed && endsRange structs (← get) then return []
  let limit ← operand parsers structs Precedence.range
  return [limit]

def followsCast (tokens : List Token) : Bool :=
  (seesPunct "." tokens && !seesPunct ".." tokens) || seesPunct "?" tokens || seesGroup .bracket tokens ||
    seesGroup .paren tokens

/-- What follows a left operand, as far as it binds at least as tightly as `base`. -/
def climb (parsers : Parsers) (left : Expr) (structs : Bool) (base : Precedence) : TokenParser Expr := do
  let tokens ← get
  if left.isRange then return left
  match operator? tokens with
  | some (text, level) =>
    if level < base then return left
    let comparison := level == Precedence.comparison
    if comparison && left.isComparison then failure
    punct text
    let right ← operand parsers structs level
    parsers (.climb (.binary comparison left right) structs base)
  | none =>
    if Precedence.assignment ≥ base && seesPunct "=" tokens && !seesPunct "=>" tokens then
      punct "="
      let right ← operand parsers structs Precedence.assignment
      parsers (.climb (.compound [left, right]) structs base)
    else if Precedence.range ≥ base && seesPunct ".." tokens then
      let limit ← rangeTail parsers structs
      parsers (.climb (.range (left :: limit)) structs base)
    else if Precedence.cast ≥ base && seesWord "as" tokens then
      word "as"
      let target ← parsers (.type false)
      if followsCast (← get) then failure
      parsers (.climb (.compound [left, target]) structs base)
    else return left

def expression (parsers : Parsers) (structs : Bool) : TokenParser Expr := do
  let first ← parsers (.unary structs)
  parsers (.climb first structs Precedence.lowest)

def arguments (parsers : Parsers) : TokenParser (List Expr) :=
  inside .paren (commaSeparated (parsers (.expression true)))

/-- Whether a part of a number such as `0.1` is an index by itself. -/
def isIndexText (text : String) : Bool :=
  match Number.integer? text.toList with
  | some (value, []) => isIndex value
  | _ => false

/-- Behind a point, a number such as `0.1` stands for two fields; `1.` stands for one and another point. -/
def floatFields (spelling : String) : Option Bool :=
  let parts := spelling.splitOn "."
  let trailing := parts.getLast? == some ""
  let parts := if trailing then parts.dropLast else parts
  if parts.all isIndexText then some trailing else none

/-- Calls, fields, indices and the like behind an expression. -/
def trailers (parsers : Parsers) (e : Expr) : TokenParser Expr := do
  let tokens ← get
  if seesGroup .paren tokens then
    let arguments ← arguments parsers
    parsers (.trailers (.call e arguments))
  else if seesPunct "." tokens && !seesPunct ".." tokens && !e.isRange then
    punct "."
    match ← get with
    | .literal (.float _ _ spelling) :: rest =>
      match floatFields spelling with
      | none => failure
      | some trailing =>
        set rest
        if trailing then member e else parsers (.trailers (.compound [e]))
    | _ => member e
  else if seesGroup .bracket tokens then
    let index ← inside .bracket (parsers (.expression true))
    parsers (.trailers (.compound [e, index]))
  else if seesPunct "?" tokens && !e.isRange then
    punct "?"
    parsers (.trailers (.compound [e]))
  else return e
where
  /-- A field, a method or `await` behind the point. -/
  member (e : Expr) : TokenParser Expr := do
    if ← word? "await" then parsers (.trailers (.compound [e]))
    else match ← get with
      | .literal value :: rest =>
        if isIndex value then
          set rest
          parsers (.trailers (.compound [e]))
        else failure
      | _ =>
        discard ident
        let generics ← if ← sees (seesPunct "::") then some <$> turbofish parsers else pure none
        if generics.isSome || (← sees (seesGroup .paren)) then
          let arguments ← arguments parsers
          parsers (.trailers (.methodCall (e :: generics.getD [] ++ arguments)))
        else parsers (.trailers (.compound [e]))

def beginsExpression (tokens : List Token) : Bool :=
  seesAnyWord tokens || seesGroup .paren tokens || seesGroup .bracket tokens || seesGroup .brace tokens ||
    seesLiteral tokens || (seesPunct "!" tokens && !seesPunct "!=" tokens) ||
    (seesPunct "-" tokens && !seesPunct "-=" tokens && !seesPunct "->" tokens) ||
    (seesPunct "*" tokens && !seesPunct "*=" tokens) || (seesPunct "|" tokens && !seesPunct "|=" tokens) ||
    (seesPunct "&" tokens && !seesPunct "&=" tokens) || seesPunct ".." tokens ||
    (seesPunct "<" tokens && !seesPunct "<=" tokens && !seesPunct "<<=" tokens) || seesPunct "::" tokens ||
    seesLifetime tokens || seesPunct "#" tokens

/-- A field of a structure: its name and value, or a name that is both. -/
def fieldValue (parsers : Parsers) : TokenParser Expr := do
  let attributes ← outerAttributes parsers
  if ← punct? ".." then
    if ← atEnd then return .compound attributes
    let rest ← parsers (.expression true)
    if ← atEnd then return .compound (attributes ++ [rest]) else failure
  return .compound (attributes ++ (← member (parsers (.expression true))))

def pathExpression (parsers : Parsers) (structs : Bool) : TokenParser Expr := do
  let (qualified, path, parts) ← qualifiedPath parsers true
  let tokens ← get
  if !qualified && seesPunct "!" tokens && !seesPunct "!=" tokens && path.isPlain then
    punct "!"
    return .invocation (← anyGroup)
  else if structs && seesGroup .brace tokens then
    let fields ← inside .brace (commaSeparated (fieldValue parsers))
    return .compound (parts ++ fields)
  else if qualified then return .compound parts
  else return .path path parts

def closureArgument (parsers : Parsers) : TokenParser Expr := do
  discard (outerAttributes parsers)
  discard (parsers .pattern)
  if ← punct? ":" then discard (parsers (.type true))
  return .closure

def closure (parsers : Parsers) (structs : Bool) : TokenParser Expr := do
  boundLifetimes
  discard (word? "const")
  discard (word? "static")
  discard (word? "async")
  discard (word? "move")
  punct "|"
  discard (commaUntil (seesPunct "|") (closureArgument parsers))
  punct "|"
  if ← punct? "->" then
    discard (parsers (.type true))
    discard (parsers (.block false))
  else discard (parsers (.expression structs))
  return .closure

def parenOrTuple (parsers : Parsers) : TokenParser Expr :=
  inside .paren do
    if ← atEnd then return .compound []
    let first ← parsers (.expression true)
    if ← atEnd then return .paren first
    punct ","
    let others ← commaSeparated (parsers (.expression true))
    return .compound (first :: others)

def arrayOrRepeat (parsers : Parsers) : TokenParser Expr :=
  inside .bracket do
    if ← atEnd then return .compound []
    let first ← parsers (.expression true)
    if ← atEnd then return .compound [first]
    if ← punct? ";" then
      let length ← parsers (.expression true)
      return .compound [first, length]
    else
      punct ","
      let others ← commaSeparated (parsers (.expression true))
      return .compound (first :: others)

/-- Branches one after the other; all but the last have a condition. -/
def branches (parsers : Parsers) : Nat → TokenParser (List Expr)
  | 0 => failure
  | fuel + 1 => do
    word "if"
    let condition ← parsers (.expression false)
    let taken ← parsers (.block false)
    if ← word? "else" then
      if ← sees (seesWord "if") then
        let others ← branches parsers fuel
        return condition :: taken :: others
      else
        let otherwise ← parsers (.block false)
        return [condition, taken, otherwise]
    else return [condition, taken]

def branching (parsers : Parsers) : TokenParser Expr := do
  return .statement (← branches parsers ((← get).length + 1))

def whileLoop (parsers : Parsers) : TokenParser Expr := do
  word "while"
  let condition ← parsers (.expression false)
  let body ← parsers (.block true)
  return .statement [condition, body]

def forLoop (parsers : Parsers) : TokenParser Expr := do
  word "for"
  let binder ← parsers .alternatives
  word "in"
  let values ← parsers (.expression false)
  let body ← parsers (.block true)
  return .statement [binder, values, body]

def endlessLoop (parsers : Parsers) : TokenParser Expr := do
  word "loop"
  let body ← parsers (.block true)
  return .statement [body]

def matchArm (parsers : Parsers) : TokenParser Expr := do
  let attributes ← outerAttributes parsers
  let pattern ← parsers .alternatives
  let guard ← if ← word? "if" then (do return [← parsers (.expression true)]) else pure []
  punct "=>"
  let body ← parsers .statementExpression
  if body.needsComma && !(← atEnd) then punct "," else discard (punct? ",")
  return .compound (attributes ++ pattern :: guard ++ [body])

def matching (parsers : Parsers) : TokenParser Expr := do
  word "match"
  let subject ← parsers (.expression false)
  let arms ← inside .brace do
    let attributes ← innerAttributes parsers
    let arms ← repeatWhile (!·.isEmpty) (matchArm parsers)
    return attributes ++ arms
  return .statement (subject :: arms)

def labeled (parsers : Parsers) : TokenParser Expr := do
  lifetime
  punct ":"
  let tokens ← get
  if seesWord "while" tokens then whileLoop parsers
  else if seesWord "for" tokens then forLoop parsers
  else if seesWord "loop" tokens then endlessLoop parsers
  else if seesGroup .brace tokens then (do return .statement [← parsers (.block true)])
  else failure

def jump (parsers : Parsers) (keyword : String) : TokenParser Expr := do
  word keyword
  if beginsExpression (← get) then
    let value ← parsers (.expression true)
    return .compound [value]
  else return .compound []

def breaking (parsers : Parsers) (structs : Bool) : TokenParser Expr := do
  word "break"
  if ← lifetime? then
    if ← sees (seesPunct ":") then failure
  let tokens ← get
  if beginsExpression tokens && (structs || !seesGroup .brace tokens) then
    let value ← parsers (.expression true)
    return .compound [value]
  else return .compound []

def letExpression (parsers : Parsers) (structs : Bool) : TokenParser Expr := do
  word "let"
  let pattern ← parsers .alternatives
  punct "="
  let first ← parsers (.unary structs)
  let value ← parsers (.climb first structs Precedence.comparison)
  return .compound [pattern, value]

def seesBinder (tokens : List Token) : Bool :=
  let inner := skipOne (skipOne tokens)
  seesWord "for" tokens && seesPunct "<" (skipOne tokens) && (seesLifetime inner || seesPunct ">" inner)

def startsClosure (tokens : List Token) : Bool :=
  let next := skipOne tokens
  seesPunct "|" tokens || seesWord "move" tokens || seesBinder tokens ||
    (seesWord "const" tokens && !seesGroup .brace next) || seesWord "static" tokens ||
    (seesWord "async" tokens && (seesPunct "|" next || seesWord "move" next))

/-- An operand without prefix operators and without what follows it. -/
def atom (parsers : Parsers) (structs : Bool) : TokenParser Expr := do
  let tokens ← get
  let next := skipOne tokens
  if seesLiteral tokens then literal
  else if seesWord "async" tokens && (seesGroup .brace next ||
      (seesWord "move" next && seesGroup .brace (skipOne next))) then
    word "async"
    discard (word? "move")
    return .compound [← parsers (.block false)]
  else if seesWord "try" tokens && seesGroup .brace next then
    word "try"
    return .statement [← parsers (.block false)]
  else if startsClosure tokens then closure parsers structs
  else if seesWord "builtin" tokens && seesPunct "#" next then
    word "builtin"
    punct "#"
    discard ident
    inside .paren everything
    return .compound []
  else if startsPath tokens || (seesWord "try" tokens && (seesPunct "!" next || seesPunct "::" next)) then
    pathExpression parsers structs
  else if seesGroup .paren tokens then parenOrTuple parsers
  else if seesWord "break" tokens then breaking parsers structs
  else if seesWord "continue" tokens then
    word "continue"
    discard lifetime?
    return .compound []
  else if seesWord "return" tokens then jump parsers "return"
  else if seesWord "become" tokens then
    word "become"
    discard (parsers (.expression true))
    return .compound []
  else if seesGroup .bracket tokens then arrayOrRepeat parsers
  else if seesWord "let" tokens then letExpression parsers structs
  else if seesWord "if" tokens then branching parsers
  else if seesWord "while" tokens then whileLoop parsers
  else if seesWord "for" tokens then forLoop parsers
  else if seesWord "loop" tokens then endlessLoop parsers
  else if seesWord "match" tokens then matching parsers
  else if seesWord "yield" tokens then jump parsers "yield"
  else if seesWord "unsafe" tokens then
    word "unsafe"
    return .statement [← parsers (.block true)]
  else if seesWord "const" tokens then
    word "const"
    return .statement [← parsers (.block true)]
  else if seesGroup .brace tokens then return .statement [← parsers (.block true)]
  else if seesPunct ".." tokens then return .range (← rangeTail parsers structs)
  else if seesWord "_" tokens then
    word "_"
    return .compound []
  else if seesLifetime tokens then labeled parsers
  else failure

/-- Prefix operators, attributes and an operand with what follows it. -/
def unary (parsers : Parsers) (structs : Bool) : TokenParser Expr := do
  let attributes ← outerAttributes parsers
  let tokens ← get
  let plain := Expr.withAttributes attributes
  if seesPunct "&" tokens then
    punct "&"
    let tokens ← get
    let raw := seesWord "raw" tokens && (seesWord "mut" (skipOne tokens) || seesWord "const" (skipOne tokens))
    if raw then word "raw"
    let mutable ← word? "mut"
    if raw && !mutable then word "const"
    let target ← parsers (.unary structs)
    return .compound (attributes ++ [target])
  else if seesPunct "-" tokens then
    punct "-"
    let target ← parsers (.unary structs)
    return plain (.negate target)
  else if seesPunct "*" tokens || seesPunct "!" tokens then
    modify (·.drop 1)
    let target ← parsers (.unary structs)
    return .compound (attributes ++ [target])
  else
    let e ← atom parsers structs
    let e ← parsers (.trailers e)
    if e.isRange && !attributes.isEmpty then failure
    return plain e

/-- An expression in the place of a statement: behind a block it ends, unless a point or question mark follows. -/
def statementExpression (parsers : Parsers) : TokenParser Expr := do
  let start ← get
  let attributes ← outerAttributes parsers
  let tokens ← get
  let next := skipOne tokens
  let block : Option (TokenParser Expr) :=
    if seesWord "if" tokens then some (branching parsers)
    else if seesWord "while" tokens then some (whileLoop parsers)
    else if seesWord "for" tokens && !seesBinder tokens then some (forLoop parsers)
    else if seesWord "loop" tokens then some (endlessLoop parsers)
    else if seesWord "match" tokens then some (matching parsers)
    else if seesWord "try" tokens && seesGroup .brace next then
      some (do word "try"; return .statement [← parsers (.block false)])
    else if seesWord "unsafe" tokens then
      some (do word "unsafe"; return .statement [← parsers (.block true)])
    else if seesWord "const" tokens && seesGroup .brace next then
      some (do word "const"; return .statement [← parsers (.block true)])
    else if seesGroup .brace tokens then some (do return .statement [← parsers (.block true)])
    else if seesLifetime tokens then some (labeled parsers)
    else none
  match block with
  | none =>
    set start
    parsers (.expression true)
  | some block =>
    let e ← block
    let tokens ← get
    if (seesPunct "." tokens && !seesPunct ".." tokens) || seesPunct "?" tokens then
      let e ← parsers (.trailers e)
      parsers (.climb e true Precedence.lowest)
    else return .withAttributes attributes e

end LiveMarkup.Expression.Grammar
