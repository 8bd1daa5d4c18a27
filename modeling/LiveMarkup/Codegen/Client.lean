import LiveMarkup.Codegen.Attributes

/-!
The client's program. Each element with its descendants becomes one hoisted piece of markup, which is cloned;
the nodes that need a reference are reached from it by steps to a first child and to a next sibling, and
calls bind what may change to them.
-/

namespace LiveMarkup.Codegen
open Blueprint Markup

/-- Where a node stands below the root: its index in its parent first, the parent's behind it. -/
abbrev Address := List Nat

/-- A node reached by steps from another: `f` to the first child, `n` to the next sibling. -/
structure Walk where
  declared : String
  origin : String
  path : String
  deriving Repr, BEq, DecidableEq

inductive Statement where
  | bind (kind : AttributeKind) (target name code : String)
  | spread (target code : String)
  | reference (target code : String)
  | listen (target event handler : String) (capture : Bool)
  | directive (target name argument : String)
  | insert (target code : String)
  | insertAtMarker (marker code : String)
  deriving Repr, BEq, DecidableEq

/-- The program of one element: its markup, the references into it and the calls that bind them. -/
structure ClientProgram where
  html : String := ""
  names : Declarations := {}
  walks : List Walk := []
  /-- The nodes that have a reference. -/
  located : List (Address × String) := []
  statements : List Statement := []
  deriving Repr

namespace ClientProgram

def rootName : String := "__el"

def start : ClientProgram := { names := (({} : Declarations).reserve rootName).2, located := [([], rootName)] }

def localAt? (program : ClientProgram) (address : Address) : Option String :=
  (program.located.find? (·.1 == address)).map Prod.snd

def steps (n : Nat) : String := String.ofList (List.replicate n 'n')

/-- The nearest earlier sibling with a reference, below index `n`, and its index. -/
def siblingBelow (program : ClientProgram) (parent : Address) : Nat → Option (Nat × String)
  | 0 => none
  | n + 1 =>
    match program.localAt? (n :: parent) with
    | some name => some (n, name)
    | none => program.siblingBelow parent n

/-- How to reach a node: from an earlier sibling if one has a reference, else by way of its parent. -/
def resolve (program : ClientProgram) : Address → String × String
  | [] => (rootName, "")
  | index :: parent =>
    match program.localAt? (index :: parent) with
    | some name => (name, "")
    | none =>
      match program.siblingBelow parent index with
      | some (i, name) => (name, steps (index - i))
      | none =>
        let (origin, path) := program.resolve parent
        (origin, path ++ "f" ++ steps index)

end ClientProgram

abbrev ClientGen := StateT ClientProgram Gen

namespace ClientGen

def emit (html : String) : ClientGen Unit := modify fun program => { program with html := program.html ++ html }

def state (statement : Statement) : ClientGen Unit :=
  modify fun program => { program with statements := program.statements ++ [statement] }

def reach (base : String) (address : Address) : ClientGen String := do
  let program ← get
  match program.localAt? address with
  | some name => return name
  | none =>
    let (origin, path) := program.resolve address
    discard (Gen.runtime "walk")
    let (name, names) := program.names.declare base ""
    let walk : Walk := ⟨name, origin, path⟩
    set { program with
      names, walks := program.walks ++ [walk], located := program.located ++ [(address, name)] }
    return name

end ClientGen

def bindFunction : AttributeKind → String
  | .plain => "attr"
  | .toggle => "class"
  | .style => "style"
  | .customProperty => "cssvar"
  | .property => "prop"

/-- The call for an attribute that is not part of the markup. -/
def attributeStatement? (target : String) : Attribute → Option Statement
  | .value kind name given _ =>
    if StaticAttributes.takes kind given then none
    else some (.bind kind target name (if given.dynamic then given.emit else given.code))
  | .spread code _ => some (.spread target code)
  | .reference code _ => some (.reference target code)
  | .event name handler capture _ => some (.listen target name (handler.bound.getD handler.code) capture)
  | .directive name argument _ => some (.directive target name (argument.getD "()"))

def Statement.isToggle : Statement → Bool
  | .bind kind _ _ _ => kind == .toggle || kind == .style || kind == .customProperty
  | _ => false

/-- Whether a call sets the whole `class` or `style`, which toggles then apply to. -/
def Statement.isBase : Statement → Bool
  | .bind .plain _ name _ => name == "class" || name == "style"
  | _ => false

/-- The calls for an element's attributes, in order, except that whole classes and styles go before the first
toggle. `early` are those before it. -/
def orderStatements : (early late : List Statement) → (toggled : Bool) → List Statement → List Statement
  | early, late, _, [] => early ++ late
  | early, late, toggled, statement :: rest =>
    let toggled := toggled || statement.isToggle
    if toggled && !statement.isBase then orderStatements early (late ++ [statement]) toggled rest
    else orderStatements (early ++ [statement]) late toggled rest

def Statement.function : Statement → String
  | .bind kind _ _ _ => bindFunction kind
  | .spread _ _ => "spread"
  | .reference _ _ => "use_ref"
  | .listen _ _ _ _ => "listen"
  | .directive _ _ _ => "use_directive"
  | .insert _ _ => "insert"
  | .insertAtMarker _ _ => "insert_at_marker"

def Statement.arguments : Statement → String
  | .bind _ target name code => "&" ++ target ++ ", " ++ stringLiteral name ++ ", " ++ code
  | .spread target code => "&" ++ target ++ ", " ++ code
  | .reference target code => "&" ++ target ++ ", " ++ code
  | .listen target event handler capture =>
    "&" ++ target ++ ", " ++ stringLiteral event ++ ", " ++ handler ++ ", " ++ (if capture then "true" else "false")
  | .directive target name argument => "&" ++ target ++ ", " ++ name ++ ", " ++ argument
  | .insert target code => "&" ++ target ++ ", " ++ indent code ++ ", None"
  | .insertAtMarker marker code => "&" ++ marker ++ ", " ++ indent code

def Statement.render (statement : Statement) : String :=
  "__" ++ statement.function ++ "(" ++ statement.arguments ++ ");"

namespace ClientProgram

/-- The call that makes the template, and the name that it takes from the library. -/
def creator (svgRoot : Bool) : String := if svgRoot then "create_svg_template" else "create_template"

/-- The code of a finished program. Without references and calls it is a bare clone. -/
def render (program : ClientProgram) (svgRoot : Bool) : Gen String := do
  let create ← Gen.runtime (creator svgRoot)
  discard (Gen.runtime "Template")
  let template ← Gen.hoist "__TMPL" (create ++ "(" ++ stringLiteral program.html ++ ")")
  let clone ← Gen.runtime "clone"
  let root := template ++ ".with(" ++ clone ++ ")"
  if program.walks.isEmpty && program.statements.isEmpty then return root
  let binding (name code : String) := "    let " ++ name ++ " = " ++ code ++ ";\n"
  return "\x7b\n" ++ binding rootName root ++
    String.join (program.walks.map fun walk =>
      binding walk.declared ("__walk(&" ++ walk.origin ++ ", " ++ stringLiteral walk.path ++ ")")) ++
    String.join (program.statements.map fun statement => "    " ++ statement.render ++ "\n") ++
    "    " ++ rootName ++ "\n\x7d"

end ClientProgram

structure ChildCursor where
  index : Nat := 0
  /-- Whether the child before it is text, which more text joins. -/
  afterText : Bool := false

def recordStatement (statement : Statement) : ClientGen Unit := do
  discard (Gen.runtime statement.function)
  ClientGen.state statement

/-- Text among children; adjacent text is one node. -/
def clientText (cursor : ChildCursor) (text : String) : ClientGen ChildCursor := do
  if text.isEmpty then return cursor
  ClientGen.emit (Entity.escapeAll text)
  return if cursor.afterText then cursor else ⟨cursor.index + 1, true⟩

/-- A child that is only known when it runs: the only one of its parent, or one behind a marker of its own. -/
def clientRegion (sole : Bool) (parent : Address) (cursor : ChildCursor) (code : String) : ClientGen ChildCursor := do
  if sole then
    recordStatement (.insert (← ClientGen.reach "__el" parent) code)
    return cursor
  else
    ClientGen.emit "<!--$-->"
    let marker ← ClientGen.reach "__m" (cursor.index :: parent)
    recordStatement (.insertAtMarker marker code)
    return ⟨cursor.index + 1, false⟩

/-- The part of a program that stands for an element at `address`, around the part for its children. -/
def clientElement (address : Address) (element : Element) (attributes : List Attribute) (inner : ClientGen Unit) :
    ClientGen Unit := do
  if attributes.any fun entry => (attributeStatement? "" entry).isSome then
    let target ← ClientGen.reach "__el" address
    for statement in orderStatements [] [] false (attributes.filterMap (attributeStatement? target)) do
      recordStatement statement
  ClientGen.emit ("<" ++ element.tag ++
    String.join ((StaticAttributes.ofAttributes attributes).merged.map renderAttribute) ++ ">")
  inner
  if !element.isVoid then ClientGen.emit ("</" ++ element.tag ++ ">")

/-- One root as it is, or a list of views. -/
def clientView (fragment : Bool) (codes : List String) : Gen String := do
  if fragment then
    let convert ← Gen.runtime "IntoView"
    let view ← Gen.runtime "View"
    return view ++ "::list(vec![" ++
      ", ".intercalate (codes.map fun code => convert ++ "::into_view(" ++ code ++ ")") ++ "])"
  else return codes.headD "()"

mutual

def clientSlot : Slot → Gen (Option String)
  | .none => return none
  | .text data => return some (stringLiteral data)
  | .expression given => return some given.code
  | .nested fragment roots => do
    let codes ← clientRoots roots
    return some (← clientView fragment codes)

def clientRoots : List Node → Gen (List String)
  | [] => return []
  | node :: rest => do
    let code ← clientRoot node
    let others ← clientRoots rest
    return code :: others

def clientRoot : Node → Gen String
  | .text data => return stringLiteral data
  | .expression given _ => return if given.dynamic then given.emit else given.code
  | .component component attributes slot => do
    let children ← clientSlot slot
    componentCall component.path attributes children
  | .element element attributes children => do
    let inner := clientChildren (element.childCount == 1) [] {} children
    let ((), program) ← (clientElement [] element attributes inner).run .start
    program.render (element.isSvg && element.tag != "svg")

def clientChildren (sole : Bool) (parent : Address) (cursor : ChildCursor) : List Node → ClientGen Unit
  | [] => return ()
  | node :: rest => do
    let cursor ← clientChild sole parent cursor node
    clientChildren sole parent cursor rest

def clientChild (sole : Bool) (parent : Address) (cursor : ChildCursor) : Node → ClientGen ChildCursor
  | .text data => clientText cursor data
  | .expression given _ =>
    if given.dynamic then clientRegion sole parent cursor given.emit else clientText cursor given.shown
  | .component component attributes slot => do
    let children ← (clientSlot slot : Gen _)
    let call ← (componentCall component.path attributes children : Gen _)
    clientRegion sole parent cursor call
  | .element element attributes children => do
    let address := cursor.index :: parent
    if element.dynamic then discard (ClientGen.reach "__el" address)
    clientElement address element attributes (clientChildren (element.childCount == 1) address {} children)
    return ⟨cursor.index + 1, false⟩

end

def client (blueprint : Blueprint) : Gen String := do
  let codes ← clientRoots blueprint.roots
  clientView blueprint.fragment codes

end LiveMarkup.Codegen
