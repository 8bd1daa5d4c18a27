import LiveMarkup.Blueprint.Node
import LiveMarkup.Codegen.Context
import LiveMarkup.Markup.Style

/-!
The part of an element's attributes that is known before anything runs and so becomes markup, and the call
that stands for a component.
-/

namespace LiveMarkup.Codegen
open Blueprint Markup

/-- What is known of an element's attributes: whole attributes, names of classes and style declarations. -/
structure StaticAttributes where
  attributes : List (String × String) := []
  classes : List String := []
  styles : Style.Declarations := []
  deriving Repr, BEq, DecidableEq

def styleName (kind : AttributeKind) (name : String) : String :=
  if kind = .customProperty then "--" ++ name else name

namespace StaticAttributes

def takes (kind : AttributeKind) (given : Value) : Bool := !given.dynamic && kind != .property

/-- Adds a known attribute; one that is switched off adds nothing. -/
def add (statics : StaticAttributes) (kind : AttributeKind) (name : String) (given : Value) : StaticAttributes :=
  match kind, given.constant with
  | .plain, some (.text text) => { statics with attributes := statics.attributes ++ [(name, text)] }
  | .plain, some (.bool true) => { statics with attributes := statics.attributes ++ [(name, "")] }
  | .toggle, some (.bool true) => { statics with classes := statics.classes ++ [name] }
  | .toggle, some (.text _) => { statics with classes := statics.classes ++ [name] }
  | .style, some (.text text) => { statics with styles := statics.styles ++ [(name, text)] }
  | .customProperty, some (.text text) =>
    { statics with styles := statics.styles ++ [(styleName .customProperty name, text)] }
  | _, _ => statics

def ofAttributes (attributes : List Attribute) : StaticAttributes :=
  attributes.foldl (fun statics entry =>
    match entry with
    | .value kind name given _ => if takes kind given then statics.add kind name given else statics
    | _ => statics) {}

def upsert (name : String) (change : String → String) (fresh : String) : List (String × String) → List (String × String)
  | [] => [(name, fresh)]
  | (n, v) :: rest => if n = name then (n, change v) :: rest else (n, v) :: upsert name change fresh rest

/-- The attributes of the open tag: classes are added to `class`, declarations to `style`. -/
def merged (statics : StaticAttributes) : List (String × String) :=
  let extra := " ".intercalate statics.classes
  let withClasses := if statics.classes.isEmpty then statics.attributes
    else upsert "class" (fun base => if base.isEmpty then extra else base ++ " " ++ extra) extra statics.attributes
  if statics.styles.isEmpty then withClasses
  else
    upsert "style" (fun base => Style.render (Style.parse base ++ statics.styles)) (Style.render statics.styles)
      withClasses

end StaticAttributes

def renderAttribute (entry : String × String) : String :=
  " " ++ entry.1 ++ "=\"" ++ Entity.escapeAll entry.2 ++ "\""

/-- Where the properties of a component come from: a group of named ones, or another value. -/
inductive PropertySource where
  | group (entries : List String)
  | spread (code : String)
  deriving Repr, BEq, DecidableEq

/-- The call that adds a named property; what may change is passed as a function. -/
def propertyEntry (name : String) (given : Value) : String :=
  if given.observable then ".getter(" ++ stringLiteral name ++ ", " ++ given.emit ++ ")"
  else ".set(" ++ stringLiteral name ++ ", " ++ given.code ++ ")"

def addToGroup (entry : String) : List PropertySource → List PropertySource
  | [] => [.group [entry]]
  | [.group entries] => [.group (entries ++ [entry])]
  | source :: rest => source :: addToGroup entry rest

/-- Named properties between two spreads form one group. -/
def addSource (sources : List PropertySource) (entry : Attribute) : List PropertySource :=
  match entry with
  | .value _ name given _ => addToGroup (propertyEntry name given) sources
  | .spread code _ => sources ++ [.spread code]
  | _ => sources

/-- The sources of a component's properties in order. -/
def propertySources (attributes : List Attribute) (children : Option String) : List PropertySource :=
  let named := attributes.foldl addSource []
  match children with
  | some code => addToGroup (".children(move || " ++ code ++ ")") named
  | none => named

def PropertySource.render (properties : String) : PropertySource → String
  | .group entries => properties ++ "::new()" ++ String.join entries
  | .spread code => code

/-- A later source of properties wins over an earlier one. -/
def mergedSources (properties : String) : List String → Gen String
  | [] => return properties ++ "::new()"
  | [source] => return source
  | sources => do return (← Gen.runtime "merge_props") ++ "(vec![" ++ ", ".intercalate sources ++ "])"

/-- The call that stands for a component. -/
def componentCall (path : String) (attributes : List Attribute) (children : Option String) : Gen String := do
  let properties ← Gen.runtime "Props"
  let given ← mergedSources properties ((propertySources attributes children).map (PropertySource.render properties))
  let create ← Gen.runtime "create_component"
  return create ++ "(" ++ path ++ ", " ++ given ++ ")"

end LiveMarkup.Codegen
