import LiveMarkup.Expression.Parser
import LiveMarkup.Text.Quoted

/-!
What is known of an embedded expression before it runs: whether it is a constant, whether evaluating it may
read something that changes, and whether it can be passed on by name.
-/

namespace LiveMarkup.Blueprint
open Expression Text

inductive Constant where
  | text (data : String)
  | bool (value : Bool)
  deriving Repr, BEq, DecidableEq

def Constant.shown : Constant → String
  | .text data => data
  | .bool _ => ""

structure Value where
  /-- The code as written. -/
  code : String
  constant : Option Constant
  /-- Whether evaluating the code makes a call, which is where changing things are read. -/
  observable : Bool
  /-- The path that stands for the code when it is passed on. -/
  bound : Option String
  deriving Repr, BEq, DecidableEq

namespace Value

def dynamic (value : Value) : Bool := value.constant.isNone

def ofText (text : String) : Value := ⟨quoted text, some (.text text), false, none⟩

def present : Value := ⟨"true", some (.bool true), false, none⟩

/-- The code that passes the value on: what may change is passed as a function. -/
def emit (value : Value) : String :=
  if value.observable then value.bound.getD ("move || " ++ value.code) else value.code

def shown (value : Value) : String := (value.constant.map Constant.shown).getD ""

end Value

/-- The constant that an expression is: a literal, a negated number or either in parentheses, with attributes or not. -/
def constantOf : Expr → Option Constant
  | .literal (.text data) => some (.text data)
  | .literal (.char c) => some (.text (String.singleton c))
  | .literal (.int value _) => some (.text (toString value))
  | .literal (.float digits _ _) => some (.text digits)
  | .literal (.bool value) => some (.bool value)
  | .negate operand =>
    match operand.bare with
    | .literal (.int value _) => some (.text ("-" ++ toString value))
    | .literal (.float digits _ _) => some (.text ("-" ++ digits))
    | _ => none
  | .paren inner => constantOf inner
  | .attributed _ inner => constantOf inner
  | _ => none

def calledPath (e : Expr) : Option String :=
  match e.bare with
  | .call (.path path _) [] => path.text?
  | _ => none

def pathOf (e : Expr) : Option String :=
  match e.bare with
  | .path path _ => path.text?
  | _ => none

def analyze? (code : String) : Option Value :=
  (parse? code).map fun e =>
    match constantOf e with
    | some constant => ⟨code, some constant, false, none⟩
    | none => ⟨code, none, e.makesCall, calledPath e⟩

/-- Looks at an expression in the place of an event handler, which is passed on as it is. -/
def analyzeHandler? (code : String) : Option Value :=
  (parse? code).map fun e => ⟨code, none, false, pathOf e⟩

end LiveMarkup.Blueprint
