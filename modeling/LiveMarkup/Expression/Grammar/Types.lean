import LiveMarkup.Expression.Grammar.Names

/-!
Types. The result of a plain path is that path; of any other type only the expressions inside are kept.
-/

namespace LiveMarkup.Expression.Grammar
open TokenParser

def linkage : TokenParser Unit := do
  if ← word? "extern" then
    match ← get with
    | .literal (.text _) :: rest => set rest
    | _ => pure ()

def returnType (parsers : Parsers) (plus : Bool) : TokenParser (List Expr) := do
  if ← punct? "->" then
    let result ← parsers (.type plus)
    return [result]
  else return []

def functionTypeArgument (parsers : Parsers) : TokenParser Expr := do
  let attributes ← outerAttributes parsers
  if ← punct? "..." then return .compound attributes
  let tokens ← get
  let named := (seesIdent tokens || seesWord "_" tokens || seesWord "self" tokens) &&
    seesPunct ":" (skipOne tokens) && !seesPunct "::" (skipOne tokens)
  if named then
    discard anyWord
    punct ":"
    if ← punct? "..." then return .compound attributes
  let type ← parsers (.type true)
  return .compound (attributes ++ [type])

def functionType (parsers : Parsers) : TokenParser Expr := do
  discard (word? "unsafe")
  linkage
  word "fn"
  let arguments ← inside .paren (commaSeparated (functionTypeArgument parsers))
  let result ← returnType parsers false
  return .compound (arguments ++ result)

/-- The arguments of a trait written as a function, as often as a path has them. -/
def functionTraits (parsers : Parsers) (qualified : Bool) (path : Path) (parts : List Expr) : Nat → TokenParser Expr
  | 0 => failure
  | fuel + 1 => do
    if ← sees (seesArguments path) then
      discard (punct? "::")
      let arguments ← inside .paren (commaSeparated (parsers (.type true)))
      let result ← returnType parsers false
      let grouped := match result with
        | [] => true
        | [.paren _] => true
        | _ => false
      let inner := parts ++ arguments ++ result
      let last : List Segment := path.segments.dropLast ++ (path.segments.getLast?.map ({ · with generic := true })).toList
      if grouped then
        let (path, inner) ← pathRest parsers false { path with segments := last } inner (← nameFuel)
        functionTraits parsers true path inner fuel
      else return .compound inner
    else if qualified then return .compound parts
    else return .path path parts

def moreBounds (parsers : Parsers) : TokenParser (List Expr) := do
  let step : TokenParser Expr := do
    punct "+"
    let tokens ← get
    if seesAnyWord tokens || seesPunct "::" tokens || seesPunct "?" tokens || seesLifetime tokens ||
        seesGroup .paren tokens then bound parsers (← nameFuel)
    else return .compound []
  repeatWhile (seesPunct "+") step

/-- The content of a type in parentheses: a tuple or one type. -/
def typeInParens (parsers : Parsers) : TokenParser Expr := do
  let tokens ← get
  if tokens.isEmpty then return .compound []
  else if seesLifetime tokens || seesPunct "?" tokens then
    let parts ← bounds parsers List.isEmpty
    return .compound parts
  else
    let first ← parsers (.type true)
    if ← atEnd then return .paren first
    punct ","
    let others ← commaSeparated (parsers (.type true))
    return .compound (first :: others)

def startsPath (tokens : List Token) : Bool :=
  seesIdent tokens || seesPunct "::" tokens || seesPunct "<" tokens ||
    ["super", "self", "Self", "crate"].any (seesWord · tokens)

def type (parsers : Parsers) (plus : Bool) : TokenParser Expr := do
  let quantified ← sees (seesWord "for")
  boundLifetimes
  let tokens ← get
  if quantified && !(seesIdent tokens ||
      ["fn", "unsafe", "extern", "super", "self", "Self", "crate"].any (seesWord · tokens)) then failure
  if seesGroup .paren tokens then
    let inner ← inside .paren (typeInParens parsers)
    if plus && (← sees (seesPunct "+")) then
      let more ← moreBounds parsers
      return .compound (inner :: more)
    return inner
  else if seesWord "fn" tokens || seesWord "unsafe" tokens || seesWord "extern" tokens then functionType parsers
  else if startsPath tokens then
    let (qualified, path, parts) ← qualifiedPath parsers false
    let found ← functionTraits parsers qualified path parts ((← get).length + 1)
    if qualified then return found
    let tokens ← get
    if seesPunct "!" tokens && !seesPunct "!=" tokens && path.isPlain then
      punct "!"
      return .invocation (← anyGroup)
    if plus && seesPunct "+" tokens then
      let more ← moreBounds parsers
      return .compound (found :: more)
    return (if quantified then .compound [found] else found)
  else if seesWord "dyn" tokens then
    word "dyn"
    discard (punct? "*")
    let first ← bound parsers (← nameFuel)
    let more ← if plus then moreBounds parsers else pure []
    return .compound (first :: more)
  else if seesGroup .bracket tokens then
    inside .bracket do
      let element ← parsers (.type true)
      if ← punct? ";" then
        let length ← parsers (.expression true)
        return .compound [element, length]
      else return .compound [element]
  else if seesPunct "*" tokens then
    punct "*"
    if !(← word? "const") then word "mut"
    let target ← parsers (.type false)
    return .compound [target]
  else if seesPunct "&" tokens then
    punct "&"
    discard lifetime?
    discard (word? "mut")
    let target ← parsers (.type false)
    return .compound [target]
  else if seesPunct "!" tokens && !seesPunct "=" tokens then
    punct "!"
    return .compound []
  else if seesWord "impl" tokens then
    word "impl"
    let first ← bound parsers (← nameFuel)
    let more ← if plus then moreBounds parsers else pure []
    return .compound (first :: more)
  else if seesWord "_" tokens then
    word "_"
    return .compound []
  else if seesLifetime tokens then
    let first ← bound parsers (← nameFuel)
    let more ← if plus then moreBounds parsers else pure []
    return .compound (first :: more)
  else failure

end LiveMarkup.Expression.Grammar
