/-!
A table of generated names and their initializers. Each base has its own count: the first name is the base
itself, the next ones end in `_2`, `_3` and so on. Entries keep the order in which they were made.
-/

namespace LiveMarkup.Codegen

structure Declarations where
  entries : List (String × Option String) := []
  /-- How many names each base has given. -/
  counts : List (String × Nat) := []
  deriving Repr, BEq, DecidableEq

namespace Declarations

def countOf (table : Declarations) (base : String) : Nat :=
  ((table.counts.find? (·.1 == base)).map Prod.snd).getD 0

def bump (base : String) : List (String × Nat) → List (String × Nat)
  | [] => [(base, 1)]
  | (b, n) :: rest => if b = base then (b, n + 1) :: rest else (b, n) :: bump base rest

def nameFor (base : String) (n : Nat) : String := if n = 1 then base else base ++ "_" ++ toString n

def add (table : Declarations) (base : String) (init : Option String) : String × Declarations :=
  let name := nameFor base (table.countOf base + 1)
  (name, ⟨table.entries ++ [(name, init)], bump base table.counts⟩)

def declare (table : Declarations) (base init : String) : String × Declarations := table.add base (some init)

def reserve (table : Declarations) (base : String) : String × Declarations := table.add base none

def setFirst (name init : String) : List (String × Option String) → List (String × Option String)
  | [] => []
  | (n, i) :: rest => if n = name then (n, some init) :: rest else (n, i) :: setFirst name init rest

/-- Gives an entry another initializer; says whether there is such an entry. -/
def update (table : Declarations) (name init : String) : Bool × Declarations :=
  (table.entries.any (·.1 == name), { table with entries := setFirst name init table.entries })

def isInstance (name base : String) : Bool :=
  base.toList.isPrefixOf name.toList &&
    match name.toList.drop base.length with
    | [] => true
    | '_' :: digits => !digits.isEmpty && digits.all Char.isDigit
    | _ => false

/-- Declares a name unless the base already has one with the same initializer. -/
def hoist (table : Declarations) (base init : String) : String × Declarations :=
  match table.entries.find? fun (name, i) => i == some init && isInstance name base with
  | some (name, _) => (name, table)
  | none => table.declare base init

def get? (table : Declarations) (name : String) : Option String :=
  (table.entries.find? (·.1 == name)).bind Prod.snd

end Declarations
end LiveMarkup.Codegen
