import LiveMarkup.Codegen.Declarations

/-!
What all templates of one file share: the hoisted declarations and the names that the generated code takes
from the library it runs on.
-/

namespace LiveMarkup.Codegen

/-- What the generated program does: build and bind live nodes, or print markup. -/
inductive Target where
  | client | server
  deriving Repr, BEq, DecidableEq

structure Options where
  target : Target := .client
  /-- The path of the library in the generated declaration of names. -/
  runtime : String := "::weft_runtime"
  /-- The name in front of template blocks. -/
  keyword : String := "view"
  deriving Repr

structure Context where
  target : Target
  runtime : String
  declarations : Declarations := {}
  /-- The names taken from the library, in order. -/
  imports : List String := []
  deriving Repr

def Context.ofOptions (options : Options) : Context := { target := options.target, runtime := options.runtime }

abbrev Gen := StateM Context

def insertName (name : String) : List String → List String
  | [] => [name]
  | n :: rest =>
    if name = n then n :: rest
    else if name < n then name :: n :: rest
    else n :: insertName name rest

namespace Gen

/-- Takes a name from the library; the code uses it under an alias. -/
def runtime (name : String) : Gen String := do
  modify fun context => { context with imports := insertName name context.imports }
  return "__" ++ name

def hoist (base init : String) : Gen String :=
  modifyGet fun context =>
    let (name, declarations) := context.declarations.hoist base init
    (name, { context with declarations })

end Gen

namespace Context

def renderImports (context : Context) : String :=
  if context.imports.isEmpty then ""
  else
    "use " ++ context.runtime ++ "::\x7b" ++
      ", ".intercalate (context.imports.map fun name => name ++ " as __" ++ name) ++ "\x7d;\n"

/-- The hoisted declarations as items. -/
def renderHoisted (context : Context) : String :=
  let entries := context.declarations.entries.filterMap fun (name, init) => init.map (name, ·)
  match context.target with
  | .client =>
    if entries.isEmpty then ""
    else
      "thread_local! \x7b\n" ++
        String.join (entries.map fun (name, init) => "    static " ++ name ++ ": __Template = " ++ init ++ ";\n") ++
        "\x7d\n"
  | .server => String.join (entries.map fun (name, init) => "const " ++ name ++ ": &[&str] = " ++ init ++ ";\n")

end Context

def stringLiteral (s : String) : String :=
  let escape (c : Char) : List Char :=
    match c with
    | '\\' => ['\\', '\\']
    | '"' => ['\\', '"']
    | '\n' => ['\\', 'n']
    | '\r' => ['\\', 'r']
    | '\t' => ['\\', 't']
    | c => [c]
  String.ofList ('"' :: s.toList.flatMap escape ++ ['"'])

/-- Moves every line but the first four columns to the right. -/
def indent (code : String) : String :=
  String.ofList (code.toList.flatMap fun c => if c = '\n' then '\n' :: [' ', ' ', ' ', ' '] else [c])

end LiveMarkup.Codegen
