import LiveMarkup.Expression.Grammar.Nonterminal

/-!
Paths, their arguments, bounds and attributes.
-/

namespace LiveMarkup.Expression.Grammar
open TokenParser

def constantArgument (parsers : Parsers) : TokenParser Expr := do
  if ← sees seesLiteral then literal
  else if ← sees seesIdent then
    discard ident
    return .compound []
  else parsers (.block true)

/-- An index in the place of a name: decimal, without suffix, and not too large. -/
def isIndex : Literal → Bool
  | .int value suffix => suffix == "" && value < Nat.pow 2 32
  | _ => false

/-- What is given for a field. An index needs it; a name may stand for it too. -/
def member (given : TokenParser Expr) : TokenParser (List Expr) := do
  match ← get with
  | .literal index :: rest =>
    if !isIndex index then failure
    set rest
    punct ":"
    return [← given]
  | _ =>
    discard ident
    if ← punct? ":" then return [← given] else return []

def boundLifetimes : TokenParser Unit := do
  if ← sees (seesWord "for") then
    word "for"
    punct "<"
    discard <| commaUntil (seesPunct ">") do
      lifetime
      if ← punct? ":" then
        discard <| repeatWhile seesLifetime do
          lifetime
          discard (punct? "+")
          return .compound []
      return .compound []
    punct ">"

def plainPath : Nat → TokenParser Path
  | 0 => failure
  | fuel + 1 => do
    let tokens ← get
    if seesIdent tokens || ["super", "self", "Self", "crate"].any (seesWord · tokens) then
      let name ← anyWord
      if ← punct? "::" then
        let rest ← plainPath fuel
        return ⟨false, ⟨name, false⟩ :: rest.segments⟩
      else return ⟨false, [⟨name, false⟩]⟩
    else failure

def modulePath : TokenParser Path := do
  let rooted ← punct? "::"
  let path ← plainPath ((← get).length + 1)
  return { path with rooted }

def attributeContent (parsers : Parsers) : TokenParser Expr := do
  if ← sees (seesWord "unsafe") then word "unsafe" else discard modulePath
  if (← get).isEmpty then return .compound []
  else if ← sees (seesPunct "=") then
    punct "="
    if (← sees (seesPunct "#")) then failure
    let value ← parsers (.expression true)
    return .compound [value]
  else
    discard anyGroup
    return .compound []

def outerAttribute (parsers : Parsers) : TokenParser Expr := do
  punct "#"
  inside .bracket (attributeContent parsers)

def outerAttributes (parsers : Parsers) : TokenParser (List Expr) :=
  repeatWhile (seesPunct "#") (outerAttribute parsers)

def seesInnerAttribute (tokens : List Token) : Bool :=
  seesPunct "#" tokens && seesPunct "!" (skipOne tokens)

def innerAttributes (parsers : Parsers) : TokenParser (List Expr) :=
  repeatWhile seesInnerAttribute do
    punct "#"
    punct "!"
    inside .bracket (attributeContent parsers)

def parenthesizedArguments (parsers : Parsers) : TokenParser (List Expr) := do
  let arguments ← inside .paren (commaSeparated (parsers (.type true)))
  if ← punct? "->" then
    let result ← parsers (.type false)
    return arguments ++ [result]
  else return arguments

/-- Whether the last name of a path, which has no arguments yet, is given those of a function. -/
def seesArguments (path : Path) (tokens : List Token) : Bool :=
  !(path.segments.getLast?.map Segment.generic).getD false && (seesGroup .paren tokens ||
    (seesPunct "::" tokens && seesGroup .paren (skipOne (skipOne tokens))))

mutual

/-- A name in a path with its arguments; in an expression they stand behind `::`. -/
def segment (parsers : Parsers) (inExpression : Bool) : Nat → TokenParser (Segment × List Expr)
  | 0 => failure
  | fuel + 1 => do
    let tokens ← get
    if ["super", "self", "crate", "try"].any (seesWord · tokens) then
      let name ← anyWord
      return (⟨name, false⟩, [])
    let name ← if seesWord "Self" tokens then anyWord else ident
    let tokens ← get
    let bare := !inExpression && seesPunct "<" tokens && !seesPunct "<=" tokens && !seesPunct "<<=" tokens
    let turbofish := seesPunct "::" tokens && seesPunct "<" (skipOne (skipOne tokens))
    if bare || turbofish then
      let arguments ← angleArguments parsers fuel
      return (⟨name, true⟩, arguments)
    else return (⟨name, false⟩, [])

def angleArguments (parsers : Parsers) : Nat → TokenParser (List Expr)
  | 0 => failure
  | fuel + 1 => do
    discard (punct? "::")
    punct "<"
    let arguments ← commaUntil (seesPunct ">") (genericArgument parsers fuel)
    punct ">"
    return arguments

def genericArgument (parsers : Parsers) : Nat → TokenParser Expr
  | 0 => failure
  | fuel + 1 => do
    let tokens ← get
    if seesLifetime tokens && !seesPunct "+" (skipOne tokens) then
      lifetime
      return .compound []
    if seesLiteral tokens || seesGroup .brace tokens then return ← constantArgument parsers
    let argument ← parsers (.type true)
    match argument with
    | .path ⟨false, [_]⟩ _ =>
      if ← punct? "=" then
        let tokens ← get
        let value ← if seesLiteral tokens || seesGroup .brace tokens then constantArgument parsers
          else parsers (.type true)
        return .compound [argument, value]
      else if ← punct? ":" then
        let bounds ← boundsUntil parsers fuel fun tokens => seesPunct "," tokens || seesPunct ">" tokens
        return .compound (argument :: bounds)
      else return argument
    | _ => return argument

def boundsUntil (parsers : Parsers) : Nat → (List Token → Bool) → TokenParser (List Expr)
  | 0, _ => failure
  | fuel + 1, stop => do
    if stop (← get) then return []
    let first ← bound parsers fuel
    if ← punct? "+" then
      let others ← boundsUntil parsers fuel stop
      return first :: others
    else return [first]

/-- A lifetime or a trait, perhaps in parentheses, as a bound. -/
def bound (parsers : Parsers) : Nat → TokenParser Expr
  | 0 => failure
  | fuel + 1 => do
    let tokens ← get
    if seesLifetime tokens then
      lifetime
      return .compound []
    else if seesWord "use" tokens then
      word "use"
      punct "<"
      discard <| commaUntil (seesPunct ">") do
        if ← lifetime? then return .compound []
        discard anyWord
        return .compound []
      punct ">"
      return .compound []
    else if seesGroup .paren tokens then inside .paren (traitBound parsers fuel)
    else traitBound parsers fuel

def traitBound (parsers : Parsers) : Nat → TokenParser Expr
  | 0 => failure
  | fuel + 1 => do
    boundLifetimes
    if ← punct? "~" then word "const"
    else if ← sees (seesWord "const") then word "const"
    discard (word? "async")
    discard (punct? "?")
    let (path, parts) ← path parsers false fuel
    if ← sees (seesArguments path) then
      discard (punct? "::")
      let arguments ← parenthesizedArguments parsers
      return .compound (parts ++ arguments)
    else return .compound parts

def pathRest (parsers : Parsers) (inExpression : Bool) (path : Path) (parts : List Expr) :
    Nat → TokenParser (Path × List Expr)
  | 0 => failure
  | fuel + 1 => do
    let tokens ← get
    if seesPunct "::" tokens && !seesGroup .paren (skipOne (skipOne tokens)) then
      punct "::"
      let (next, more) ← segment parsers inExpression fuel
      pathRest parsers inExpression { path with segments := path.segments ++ [next] } (parts ++ more) fuel
    else return (path, parts)

def path (parsers : Parsers) (inExpression : Bool) : Nat → TokenParser (Path × List Expr)
  | 0 => failure
  | fuel + 1 => do
    let rooted ← punct? "::"
    let (first, parts) ← segment parsers inExpression fuel
    pathRest parsers inExpression ⟨rooted, [first]⟩ parts fuel

end

/-- Fuel enough for the names at the start of what is left: a step takes a token or is one of six before one. -/
def nameFuel : TokenParser Nat := do return 8 * ((← get).length + 1)

def bounds (parsers : Parsers) (stop : List Token → Bool) : TokenParser (List Expr) := do
  boundsUntil parsers (← nameFuel) stop

def turbofish (parsers : Parsers) : TokenParser (List Expr) := do
  punct "::"
  angleArguments parsers (← nameFuel)

/-- A path that may start with a type in angle brackets; says whether it does. -/
def qualifiedPath (parsers : Parsers) (inExpression : Bool) : TokenParser (Bool × Path × List Expr) := do
  if ← sees (seesPunct "<") then
    punct "<"
    let self ← parsers (.type true)
    let trait ← if ← word? "as" then do
        let (_, parts) ← path parsers false (← nameFuel)
        pure parts
      else pure []
    punct ">"
    punct "::"
    let (first, parts) ← segment parsers inExpression (← nameFuel)
    let (path, parts) ← qualifiedRest ⟨false, [first]⟩ parts ((← get).length + 1)
    return (true, path, self :: trait ++ parts)
  else
    let (path, parts) ← path parsers inExpression (← nameFuel)
    return (false, path, parts)
where
  qualifiedRest (path : Path) (parts : List Expr) : Nat → TokenParser (Path × List Expr)
    | 0 => failure
    | fuel + 1 => do
      if ← punct? "::" then
        let (next, more) ← segment parsers inExpression (← nameFuel)
        qualifiedRest { path with segments := path.segments ++ [next] } (parts ++ more) fuel
      else return (path, parts)

end LiveMarkup.Expression.Grammar
