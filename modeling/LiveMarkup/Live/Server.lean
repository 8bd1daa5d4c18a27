import LiveMarkup.Live.Bindings
import LiveMarkup.Live.Showing

/-!
Markup written without a document: static pieces with what is put between them.
-/

namespace LiveMarkup.Live
open Markup
open Reactive (Program)

/-- Pieces and parts in turn, beginning with a piece; what is left of either comes at the end. -/
def interleave : List String → List String → String
  | [], parts => String.join parts
  | piece :: pieces, [] => piece ++ interleave pieces []
  | piece :: pieces, part :: parts => piece ++ part ++ interleave pieces parts

def closingComment : String := "<!--" ++ regionEnd ++ "-->"

def attributeMarkup (name : String) : Option String → String
  | some value => " " ++ name ++ "=\"" ++ Entity.escapeAll value ++ "\""
  | none => ""

def classesMarkup (base : Option String) (toggles : List (String × Bool)) : String :=
  let names := toggles.foldl (fun names (name, present) => Document.toggled names name present)
    (Text.wordsOf (base.getD ""))
  if names.isEmpty then "" else attributeMarkup "class" (some (" ".intercalate names))

def removeFirst (name : String) : List (String × String) → List (String × String)
  | [] => []
  | (n, v) :: rest => if n = name then rest else (n, v) :: removeFirst name rest

def stylesMarkup (base : Option String) (properties : List (String × Option String)) : String :=
  let declarations := properties.foldl (fun declarations (name, value) =>
    match value with
    | some value => putEntry name value declarations
    | none => removeFirst name declarations) (Style.parse (base.getD ""))
  if declarations.isEmpty then "" else attributeMarkup "style" (some (Style.render declarations))

structure SpreadMarkup where
  plain : String := ""
  classBase : Option String := none
  styleBase : Option String := none
  classes : List (String × Bool) := []
  styles : List (String × Option String) := []
  deriving Repr

namespace SpreadMarkup

def add (spread : SpreadMarkup) (name : String) (value : Option String) : SpreadMarkup :=
  match Props.afterStart? "class:" name, Props.afterStart? "style:" name with
  | some toggle, _ => { spread with classes := spread.classes ++ [(toggle, value.isSome)] }
  | none, some property => { spread with styles := spread.styles ++ [(property, value)] }
  | none, none =>
    if name = "class" then { spread with classBase := value }
    else if name = "style" then { spread with styleBase := value }
    else { spread with plain := spread.plain ++ attributeMarkup name value }

def render (spread : SpreadMarkup) : String :=
  spread.plain ++
    (if spread.classes.isEmpty then attributeMarkup "class" spread.classBase
      else classesMarkup spread.classBase spread.classes) ++
    (if spread.styles.isEmpty then attributeMarkup "style" spread.styleBase
      else stylesMarkup spread.styleBase spread.styles)

end SpreadMarkup

variable {γ τ : Type}

def spreadMarkup (props : Props γ) : LiveProgram γ τ String := do
  let entries := props.filter fun entry => !Props.isClientOnly entry.1
  let spread ← entries.foldlM (fun (spread : SpreadMarkup) (name, entry) =>
    match entry with
    | .value datum => return spread.add name datum.entryText?
    | .getter code => do return spread.add name (← Program.call (.datum (.code code))).entryText?
    | _ => return spread) {}
  return spread.render

end LiveMarkup.Live
