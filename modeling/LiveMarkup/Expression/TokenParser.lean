import LiveMarkup.Expression.Expr

/-!
Parsers over tokens: what they can see ahead, how they take a token or enter a group, and how items are
repeated and separated.
-/

namespace LiveMarkup.Expression

abbrev TokenParser := StateT (List Token) Option

namespace TokenParser

def keywords : List String :=
  ["_", "abstract", "as", "async", "await", "become", "box", "break", "const", "continue", "crate", "do", "dyn",
    "else", "enum", "extern", "false", "final", "fn", "for", "if", "impl", "in", "let", "loop", "macro", "match",
    "mod", "move", "mut", "override", "priv", "pub", "ref", "return", "Self", "self", "static", "struct", "super",
    "trait", "true", "try", "type", "typeof", "unsafe", "unsized", "use", "virtual", "where", "while", "yield"]

/-! ### Looking ahead -/

/-- The tokens behind the first one; a lifetime counts as one. -/
def skipOne : List Token → List Token
  | .punct '\'' true :: .ident _ :: rest => rest
  | _ :: rest => rest
  | [] => []

def startsPunct : List Char → List Token → Bool
  | [], _ => true
  | [c], .punct d _ :: _ => c == d
  | c :: cs, .punct d joint :: rest => c == d && joint && startsPunct cs rest
  | _, _ => false

/-- Whether this punctuation comes next; its characters stand without a gap. -/
def seesPunct (text : String) (tokens : List Token) : Bool := startsPunct text.toList tokens

def seesWord (word : String) : List Token → Bool
  | .ident name :: _ => name == word
  | _ => false

def seesAnyWord : List Token → Bool
  | .ident _ :: _ => true
  | _ => false

def seesIdent : List Token → Bool
  | .ident name :: _ => !keywords.contains name
  | _ => false

def seesGroup (delimiter : Delimiter) : List Token → Bool
  | .group d _ :: _ => d == delimiter
  | _ => false

def seesLifetime : List Token → Bool
  | .punct '\'' true :: .ident _ :: _ => true
  | _ => false

def seesLiteral : List Token → Bool
  | .literal _ :: _ => true
  | .ident name :: _ => name == "true" || name == "false"
  | .punct '-' _ :: .literal (.int _ _) :: _ => true
  | .punct '-' _ :: .literal (.float _ _ _) :: _ => true
  | _ => false

def sees (test : List Token → Bool) : TokenParser Bool := do return test (← get)

def atEnd : TokenParser Bool := do return (← get).isEmpty

/-! ### Taking tokens -/

def punct (text : String) : TokenParser Unit := do
  if seesPunct text (← get) then modify (·.drop text.length) else failure

def word (text : String) : TokenParser Unit := do
  if seesWord text (← get) then modify (·.drop 1) else failure

def punct? (text : String) : TokenParser Bool := do
  if seesPunct text (← get) then
    modify (·.drop text.length)
    return true
  else return false

def word? (text : String) : TokenParser Bool := do
  if seesWord text (← get) then
    modify (·.drop 1)
    return true
  else return false

def anyWord : TokenParser String := do
  match ← get with
  | .ident name :: rest =>
    set rest
    return name
  | _ => failure

def ident : TokenParser String := do
  if seesIdent (← get) then anyWord else failure

def lifetime : TokenParser Unit := do
  if seesLifetime (← get) then modify (·.drop 2) else failure

def lifetime? : TokenParser Bool := do
  if seesLifetime (← get) then
    modify (·.drop 2)
    return true
  else return false

def literal : TokenParser Expr := do
  match ← get with
  | .literal value :: rest =>
    set rest
    return .literal value
  | .ident "true" :: rest =>
    set rest
    return .literal (.bool true)
  | .ident "false" :: rest =>
    set rest
    return .literal (.bool false)
  | .punct '-' _ :: .literal (.int _ _) :: rest =>
    set rest
    return .compound []
  | .punct '-' _ :: .literal (.float _ _ _) :: rest =>
    set rest
    return .compound []
  | _ => failure

def inside {α : Type} (delimiter : Delimiter) (content : TokenParser α) : TokenParser α := do
  match ← get with
  | .group d tokens :: rest =>
    if d = delimiter then
      match content tokens with
      | some (result, []) =>
        set rest
        return result
      | _ => failure
    else failure
  | _ => failure

/-- Takes a group without looking into it; says whether it stands in braces. -/
def anyGroup : TokenParser Bool := do
  match ← get with
  | .group d _ :: rest =>
    set rest
    return d == .brace
  | _ => failure

def everything : TokenParser Unit := set ([] : List Token)

/-! ### Repetition -/

/-- Items as long as `more` holds of what is ahead. The fuel bounds their number. -/
def whileSees (more : List Token → Bool) (item : TokenParser Expr) : Nat → TokenParser (List Expr)
  | 0 => pure []
  | fuel + 1 => do
    if more (← get) then
      let first ← item
      let others ← whileSees more item fuel
      return first :: others
    else return []

/-- As many items as there are tokens at most: every item takes one. -/
def repeatWhile (more : List Token → Bool) (item : TokenParser Expr) : TokenParser (List Expr) := do
  whileSees more item (← get).length

def separatedUntil (stop : List Token → Bool) (separator : String) (item : TokenParser Expr) :
    Nat → TokenParser (List Expr)
  | 0 => pure []
  | fuel + 1 => do
    if stop (← get) then return []
    let first ← item
    if stop (← get) then return [first]
    punct separator
    let others ← separatedUntil stop separator item fuel
    return first :: others

/-- Items with commas between them and perhaps one behind the last, up to where `stop` holds. -/
def commaUntil (stop : List Token → Bool) (item : TokenParser Expr) : TokenParser (List Expr) := do
  separatedUntil stop "," item ((← get).length + 1)

def commaSeparated (item : TokenParser Expr) : TokenParser (List Expr) := commaUntil List.isEmpty item

end TokenParser
end LiveMarkup.Expression
