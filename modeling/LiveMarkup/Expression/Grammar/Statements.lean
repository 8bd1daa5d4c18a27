import LiveMarkup.Expression.Grammar.Operators

/-!
Statements and the items among them, kept as the expressions inside them.
-/

namespace LiveMarkup.Expression.Grammar
open TokenParser

/-! ### Items -/

def genericParameter (parsers : Parsers) : TokenParser Expr := do
  let attributes ← outerAttributes parsers
  let stop (tokens : List Token) := seesPunct "," tokens || seesPunct ">" tokens || seesPunct "=" tokens
  if ← lifetime? then
    let limits ← if ← punct? ":" then bounds parsers stop else pure []
    return .compound (attributes ++ limits)
  else if ← word? "const" then
    discard ident
    punct ":"
    let type ← parsers (.type true)
    let value ← if ← punct? "=" then (do return [← constantArgument parsers]) else pure []
    return .compound (attributes ++ type :: value)
  else
    discard ident
    let limits ← if ← punct? ":" then bounds parsers stop else pure []
    let value ← if ← punct? "=" then (do return [← parsers (.type true)]) else pure []
    return .compound (attributes ++ limits ++ value)

def generics (parsers : Parsers) : TokenParser (List Expr) := do
  if ← punct? "<" then
    let parameters ← commaUntil (seesPunct ">") (genericParameter parsers)
    punct ">"
    return parameters
  else return []

def endsWhere (tokens : List Token) : Bool :=
  tokens.isEmpty || seesGroup .brace tokens || seesPunct "," tokens || seesPunct ";" tokens ||
    (seesPunct ":" tokens && !seesPunct "::" tokens) || seesPunct "=" tokens

def wherePredicate (parsers : Parsers) : TokenParser Expr := do
  if ← lifetime? then
    punct ":"
    return .compound (← bounds parsers endsWhere)
  else
    boundLifetimes
    let type ← parsers (.type true)
    punct ":"
    return .compound (type :: (← bounds parsers endsWhere))

def whereClause (parsers : Parsers) : TokenParser (List Expr) := do
  if ← word? "where" then
    commaUntil (fun tokens => endsWhere tokens && !seesPunct "," tokens) (wherePredicate parsers)
  else return []

def visibility : TokenParser Unit := do
  if ← word? "pub" then
    match ← get with
    | .group .paren content :: rest =>
      if ["crate", "self", "super", "in"].any (seesWord · content) then set rest
    | _ => pure ()

def parameter (parsers : Parsers) : TokenParser Expr := do
  let attributes ← outerAttributes parsers
  if ← punct? "..." then return .compound attributes
  let tokens ← get
  let behindAnd := if seesPunct "&" tokens then
      let inner := skipOne tokens
      if seesLifetime inner then skipOne inner else inner
    else tokens
  let behindMut := if seesWord "mut" behindAnd then skipOne behindAnd else behindAnd
  if seesWord "self" behindMut && !seesPunct "::" (skipOne behindMut) then
    set (skipOne behindMut)
    let type ← if ← punct? ":" then (do return [← parsers (.type true)]) else pure []
    return .compound (attributes ++ type)
  else
    let pattern ← parsers .pattern
    punct ":"
    if ← punct? "..." then return .compound (attributes ++ [pattern])
    let type ← parsers (.type true)
    return .compound (attributes ++ [pattern, type])

def seesFunction (tokens : List Token) : Bool :=
  let skipWord (word : String) (tokens : List Token) := if seesWord word tokens then skipOne tokens else tokens
  let tokens := skipWord "unsafe" (skipWord "async" (skipWord "const" tokens))
  let tokens := if seesWord "extern" tokens then
      match skipOne tokens with
      | .literal (.text _) :: rest => rest
      | rest => rest
    else tokens
  seesWord "fn" tokens

def function (parsers : Parsers) : TokenParser (List Expr) := do
  discard (word? "const")
  discard (word? "async")
  discard (word? "unsafe")
  linkage
  word "fn"
  discard ident
  let types ← generics parsers
  let parameters ← inside .paren (commaSeparated (parameter parsers))
  let result ← returnType parsers true
  let conditions ← whereClause parsers
  let body ← if ← punct? ";" then pure [] else (do return [← parsers (.block true)])
  return types ++ parameters ++ result ++ conditions ++ body

def namedField (parsers : Parsers) : TokenParser Expr := do
  let attributes ← outerAttributes parsers
  visibility
  discard ident
  punct ":"
  let type ← parsers (.type true)
  return .compound (attributes ++ [type])

def unnamedField (parsers : Parsers) : TokenParser Expr := do
  let attributes ← outerAttributes parsers
  visibility
  let type ← parsers (.type true)
  return .compound (attributes ++ [type])

def structItem (parsers : Parsers) : TokenParser (List Expr) := do
  discard ident
  let types ← generics parsers
  let conditions ← whereClause parsers
  let tokens ← get
  if seesGroup .brace tokens then
    let fields ← inside .brace (commaSeparated (namedField parsers))
    return types ++ conditions ++ fields
  else if seesGroup .paren tokens then
    let fields ← inside .paren (commaSeparated (unnamedField parsers))
    let more ← whereClause parsers
    punct ";"
    return types ++ conditions ++ fields ++ more
  else
    punct ";"
    return types ++ conditions

def variant (parsers : Parsers) : TokenParser Expr := do
  let attributes ← outerAttributes parsers
  visibility
  discard ident
  let tokens ← get
  let fields ← if seesGroup .brace tokens then inside .brace (commaSeparated (namedField parsers))
    else if seesGroup .paren tokens then inside .paren (commaSeparated (unnamedField parsers))
    else pure []
  let value ← if ← punct? "=" then (do return [← parsers (.expression true)]) else pure []
  return .compound (attributes ++ fields ++ value)

def enumeration (parsers : Parsers) : TokenParser (List Expr) := do
  discard ident
  let types ← generics parsers
  let conditions ← whereClause parsers
  let variants ← inside .brace (commaSeparated (variant parsers))
  return types ++ conditions ++ variants

def useTree : Nat → TokenParser Unit
  | 0 => failure
  | fuel + 1 => do
    let tokens ← get
    if seesGroup .brace tokens then
      discard <| inside .brace <| commaSeparated do
        discard (punct? "::")
        useTree fuel
        return .compound []
    else if seesPunct "*" tokens then punct "*"
    else
      discard anyWord
      if ← punct? "::" then useTree fuel
      else if ← word? "as" then discard anyWord

/-- A constant or an associated constant; the value may be missing. -/
def constant (parsers : Parsers) : TokenParser (List Expr) := do
  if !(← word? "_") then discard ident
  let types ← generics parsers
  punct ":"
  let type ← parsers (.type true)
  let value ← if ← punct? "=" then (do return [← parsers (.expression true)]) else pure []
  let conditions ← whereClause parsers
  punct ";"
  return types ++ type :: value ++ conditions

def typeAlias (parsers : Parsers) : TokenParser (List Expr) := do
  discard ident
  let types ← generics parsers
  let limits ← if ← punct? ":" then
      bounds parsers fun tokens => seesWord "where" tokens || seesPunct "=" tokens || seesPunct ";" tokens
    else pure []
  let conditions ← whereClause parsers
  let type ← if ← punct? "=" then (do return [← parsers (.type true)]) else pure []
  let more ← whereClause parsers
  punct ";"
  return types ++ limits ++ conditions ++ type ++ more

def itemInvocation : TokenParser Expr := do
  discard modulePath
  punct "!"
  if ← sees seesIdent then discard ident
  let braced ← anyGroup
  if !braced then punct ";"
  return .invocation braced

/-- An item of a trait, an implementation or a block of foreign items. -/
def memberItem (parsers : Parsers) : TokenParser Expr := do
  let attributes ← outerAttributes parsers
  visibility
  let tokens ← get
  if seesWord "default" tokens && !seesPunct "!" (skipOne tokens) then word "default"
  let tokens ← get
  if seesFunction tokens then return .compound (attributes ++ (← function parsers))
  else if seesWord "const" tokens then
    word "const"
    return .compound (attributes ++ (← constant parsers))
  else if seesWord "static" tokens then
    word "static"
    discard (word? "mut")
    return .compound (attributes ++ (← constant parsers))
  else if seesWord "type" tokens then
    word "type"
    return .compound (attributes ++ (← typeAlias parsers))
  else
    let invocation ← itemInvocation
    return .compound (attributes ++ [invocation])

def members (parsers : Parsers) : TokenParser (List Expr) :=
  inside .brace do
    let attributes ← innerAttributes parsers
    let items ← repeatWhile (!·.isEmpty) (memberItem parsers)
    return attributes ++ items

def implementation (parsers : Parsers) : TokenParser (List Expr) := do
  word "impl"
  let next := skipOne (← get)
  let binds := (← sees (seesPunct "<")) &&
    (seesPunct ">" next || seesPunct "#" next ||
      ((seesIdent next || seesLifetime next) && ([":", ",", ">", "="].any (seesPunct · (skipOne next)))) ||
      seesWord "const" next)
  let types ← if binds then generics parsers else pure []
  discard (word? "const")
  discard (punct? "!")
  let first ← parsers (.type true)
  let second ← if ← word? "for" then (do return [← parsers (.type true)]) else pure []
  let conditions ← whereClause parsers
  return types ++ first :: second ++ conditions ++ (← members parsers)

def traitItem (parsers : Parsers) : TokenParser (List Expr) := do
  word "trait"
  discard ident
  let types ← generics parsers
  let limits ← if ← punct? ":" then
      bounds parsers fun tokens => seesWord "where" tokens || seesGroup .brace tokens
    else pure []
  let conditions ← whereClause parsers
  return types ++ limits ++ conditions ++ (← members parsers)

def item (parsers : Parsers) : TokenParser Expr := do
  let attributes ← outerAttributes parsers
  visibility
  let tokens ← get
  let done (parts : List Expr) : TokenParser Expr := return .compound (attributes ++ parts)
  if seesFunction tokens then done (← function parsers)
  else if seesWord "extern" tokens && seesWord "crate" (skipOne tokens) then
    word "extern"
    word "crate"
    discard anyWord
    if ← word? "as" then discard anyWord
    punct ";"
    done []
  else if seesWord "use" tokens then
    word "use"
    discard (punct? "::")
    useTree ((← get).length + 1)
    punct ";"
    done []
  else if seesWord "static" tokens then
    word "static"
    discard (word? "mut")
    done (← constant parsers)
  else if seesWord "const" tokens then
    word "const"
    done (← constant parsers)
  else if seesWord "type" tokens then
    word "type"
    done (← typeAlias parsers)
  else if seesWord "struct" tokens || (seesWord "union" tokens && seesIdent (skipOne tokens)) then
    discard anyWord
    done (← structItem parsers)
  else if seesWord "enum" tokens then
    word "enum"
    done (← enumeration parsers)
  else if ["unsafe", "default", "auto", "impl", "trait", "mod", "extern"].any (seesWord · tokens) then
    discard (word? "default")
    discard (word? "unsafe")
    discard (word? "auto")
    let tokens ← get
    if seesWord "impl" tokens then done (← implementation parsers)
    else if seesWord "trait" tokens then done (← traitItem parsers)
    else if seesWord "extern" tokens then
      linkage
      done (← members parsers)
    else
      word "mod"
      discard ident
      if ← punct? ";" then done []
      else
        let items ← inside .brace do
          let attributes ← innerAttributes parsers
          let items ← repeatWhile (!·.isEmpty) (parsers .item)
          return attributes ++ items
        done items
  else
    let invocation ← itemInvocation
    done [invocation]

/-! ### Statements -/

def tookBraceLast (before after : List Token) : Bool :=
  match (before.take (before.length - after.length)).getLast? with
  | some (.group .brace _) => true
  | _ => false

def letStatement (parsers : Parsers) : TokenParser (List Expr) := do
  word "let"
  let pattern ← parsers .pattern
  let type ← if ← punct? ":" then (do return [← parsers (.type true)]) else pure []
  let value ← if ← punct? "=" then do
      let before ← get
      let value ← parsers (.expression true)
      if !tookBraceLast before (← get) && (← sees (seesWord "else")) then
        word "else"
        let otherwise ← parsers (.block false)
        pure [value, otherwise]
      else pure [value]
    else pure []
  punct ";"
  return pattern :: type ++ value

def startsItem (tokens : List Token) : Bool :=
  let next := skipOne tokens
  let third := skipOne next
  let word (text : String) := seesWord text tokens
  let nextWord (text : String) := seesWord text next
  let thirdWord (text : String) := seesWord text third
  word "pub" || (word "crate" && !seesPunct "::" next) || word "extern" || word "use" ||
    (word "static" && (nextWord "mut" || seesIdent next)) ||
    (word "const" && !(seesGroup .brace next || nextWord "static" ||
      (nextWord "async" && !(thirdWord "unsafe" || thirdWord "extern" || thirdWord "fn")) || nextWord "move" ||
      seesPunct "|" next)) ||
    (word "unsafe" && !seesGroup .brace next) ||
    (word "async" && (nextWord "unsafe" || nextWord "extern" || nextWord "fn")) ||
    word "fn" || word "mod" || word "type" || word "struct" || word "enum" ||
    (word "union" && seesIdent next) || (word "auto" && nextWord "trait") || word "trait" ||
    (word "default" && (nextWord "unsafe" || nextWord "impl")) || word "impl" || word "macro"

/-- How an invocation at the start of a statement is to be read. -/
inductive InvocationPlace where
  | item | statement | expression

def invocationPlace (tokens : List Token) : InvocationPlace :=
  match modulePath tokens with
  | some (_, behind) =>
    if seesPunct "!" behind then
      let next := skipOne behind
      let third := skipOne next
      if seesIdent next || seesWord "try" next then .item
      else if seesGroup .brace next &&
          !((seesPunct "." third && !seesPunct ".." third) || seesPunct "?" third) then .statement
      else .expression
    else .expression
  | none => .expression

/-- A statement, and whether something must separate it from the next. -/
def statement (parsers : Parsers) : TokenParser (Expr × Bool) := do
  let start ← get
  let attributes ← outerAttributes parsers
  let tokens ← get
  let place := invocationPlace tokens
  match place with
  | .statement =>
    discard modulePath
    punct "!"
    let braced ← anyGroup
    discard (punct? ";")
    return (.compound (attributes ++ [.invocation braced]), false)
  | _ =>
    if seesWord "let" tokens then
      let parts ← letStatement parsers
      return (.compound (attributes ++ parts), false)
    else
      let isItem := match place with
        | .item => true
        | _ => startsItem tokens
      if isItem then
        set start
        return (← parsers .item, false)
      else
        let e ← parsers .statementExpression
        let ended ← punct? ";"
        return (.withAttributes attributes e, !ended && e.needsSemicolon)

def statements (parsers : Parsers) : Nat → TokenParser (List Expr)
  | 0 => failure
  | fuel + 1 => do
    if ← punct? ";" then statements parsers fuel
    else if ← atEnd then return []
    else
      let (first, unfinished) ← statement parsers
      if ← atEnd then return [first]
      if unfinished then failure
      let others ← statements parsers fuel
      return first :: others

def block (parsers : Parsers) (attributes : Bool) : TokenParser Expr :=
  inside .brace do
    let first ← if attributes then innerAttributes parsers else pure []
    let others ← statements parsers ((← get).length + 1)
    return .compound (first ++ others)

end LiveMarkup.Expression.Grammar
