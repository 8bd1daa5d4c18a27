import LiveMarkup.Expression.Grammar.Types

/-!
Patterns, kept as the expressions inside them.
-/

namespace LiveMarkup.Expression.Grammar
open TokenParser

def seesBar (tokens : List Token) : Bool :=
  seesPunct "|" tokens && !seesPunct "||" tokens && !seesPunct "|=" tokens

/-- Patterns with bars between them and perhaps one in front. -/
def alternatives (parsers : Parsers) : TokenParser Expr := do
  discard (punct? "|")
  let first ← parsers .pattern
  let others ← repeatWhile seesBar do
    punct "|"
    parsers .pattern
  return .compound (first :: others)

def rangeBound (parsers : Parsers) : TokenParser (Option Expr) := do
  let tokens ← get
  if tokens.isEmpty || seesPunct "|" tokens || seesPunct "=" tokens ||
      (seesPunct ":" tokens && !seesPunct "::" tokens) || seesPunct "," tokens || seesPunct ";" tokens ||
      seesWord "if" tokens then return none
  else if seesLiteral tokens then return some (← literal)
  else if startsPath tokens then
    let (_, _, parts) ← qualifiedPath parsers true
    return some (.compound parts)
  else if seesWord "const" tokens then
    word "const"
    return some (← parsers (.block true))
  else failure

/-- What follows the start of a range: its limit and its end. Only an open range may lack the end. -/
def rangeEnd (parsers : Parsers) : TokenParser (List Expr) := do
  let closed ← if ← punct? "..=" then pure true
    else if ← punct? "..." then pure true
    else do
      punct ".."
      pure false
  match ← rangeBound parsers with
  | some e => return [e]
  | none => if closed then failure else return []

def fieldPattern (parsers : Parsers) : TokenParser Expr := do
  let attributes ← outerAttributes parsers
  if ← punct? ".." then
    if ← atEnd then return .compound attributes else failure
  let boxed ← word? "box"
  let reference ← word? "ref"
  let mutable ← word? "mut"
  if boxed || reference || mutable then
    discard ident
    return .compound attributes
  return .compound (attributes ++ (← member (parsers .alternatives)))

def pathPattern (parsers : Parsers) : TokenParser Expr := do
  let (qualified, path, parts) ← qualifiedPath parsers true
  let tokens ← get
  if !qualified && seesPunct "!" tokens && !seesPunct "!=" tokens && path.isPlain then
    punct "!"
    return .invocation (← anyGroup)
  else if seesGroup .brace tokens then
    let fields ← inside .brace (commaSeparated (fieldPattern parsers))
    return .compound (parts ++ fields)
  else if seesGroup .paren tokens then
    let fields ← inside .paren (commaSeparated (parsers .alternatives))
    return .compound (parts ++ fields)
  else if seesPunct ".." tokens then
    let limit ← rangeEnd parsers
    return .compound (parts ++ limit)
  else return .compound parts

def identPattern (parsers : Parsers) : TokenParser Expr := do
  discard (word? "ref")
  discard (word? "mut")
  if ← sees (seesWord "self") then discard anyWord else discard ident
  if ← punct? "@" then
    let inner ← parsers .pattern
    return .compound [inner]
  else return .compound []

def startsPathPattern (tokens : List Token) : Bool :=
  let next := skipOne tokens
  (seesIdent tokens && (seesPunct "::" next || seesPunct "!" next || seesGroup .brace next ||
      seesGroup .paren next || seesPunct ".." next)) ||
    (seesWord "self" tokens && seesPunct "::" next) || seesPunct "::" tokens || seesPunct "<" tokens ||
    ["Self", "super", "crate"].any (seesWord · tokens)

def pattern (parsers : Parsers) : TokenParser Expr := do
  let tokens ← get
  if startsPathPattern tokens then pathPattern parsers
  else if seesWord "_" tokens then
    word "_"
    return .compound []
  else if seesWord "box" tokens then
    word "box"
    parsers .pattern
  else if seesPunct "-" tokens || seesLiteral tokens || seesWord "const" tokens then
    match ← rangeBound parsers with
    | none => failure
    | some start =>
      if ← sees (seesPunct "..") then
        let limit ← rangeEnd parsers
        return .compound (start :: limit)
      else return .compound [start]
  else if seesWord "ref" tokens || seesWord "mut" tokens || seesWord "self" tokens || seesIdent tokens then
    identPattern parsers
  else if seesPunct "&" tokens then
    punct "&"
    discard (word? "mut")
    parsers .pattern
  else if seesGroup .paren tokens then
    let parts ← inside .paren (commaSeparated (parsers .alternatives))
    return .compound parts
  else if seesGroup .bracket tokens then
    let parts ← inside .bracket (commaSeparated (parsers .alternatives))
    return .compound parts
  else if seesPunct ".." tokens && !seesPunct "..." tokens then
    let parts ← rangeEnd parsers
    return .compound parts
  else failure

end LiveMarkup.Expression.Grammar
