import LiveMarkup.Codegen.Attributes

/-!
The server's program: markup that is known, interleaved with parts that are computed. A computed child is
closed by a mark, and opened by one as well unless it is the only child of its element, so that the client
can find it again.
-/

namespace LiveMarkup.Codegen
open Blueprint Markup

/-- A stretch of known markup, or the code of a computed part. -/
inductive Chunk where
  | markup (text : String)
  | part (code : String)
  deriving Repr, BEq, DecidableEq

def fragmentsFrom (current : String) : List Chunk → List String
  | [] => [current]
  | .markup text :: rest => fragmentsFrom (current ++ text) rest
  | .part _ :: rest => current :: fragmentsFrom "" rest

def fragments (chunks : List Chunk) : List String := fragmentsFrom "" chunks

def parts (chunks : List Chunk) : List String :=
  chunks.filterMap fun
    | .part code => some code
    | .markup _ => none

def call (function : String) (arguments : List String) : Gen String := do
  return (← Gen.runtime function) ++ "(" ++ ", ".intercalate arguments ++ ")"

inductive ComputedAttribute where
  | whole (name code : String)
  | spread (code : String)
  deriving Repr, BEq, DecidableEq

/-- The computed attributes of an element: whole ones and spreads in order, class toggles and style properties. -/
structure ComputedAttributes where
  attributes : List ComputedAttribute
  classes : List (String × String)
  styles : List (String × String)

def ComputedAttributes.ofAttributes (attributes : List Attribute) : ComputedAttributes where
  attributes := attributes.filterMap fun
    | .value .plain name given _ => if given.dynamic then some (.whole name given.code) else none
    | .spread code _ => some (.spread code)
    | _ => none
  classes := attributes.filterMap fun
    | .value .toggle name given _ => if given.dynamic then some (name, given.code) else none
    | _ => none
  styles := attributes.filterMap fun
    | .value .style name given _ => if given.dynamic then some (name, given.code) else none
    | .value .customProperty name given _ =>
      if given.dynamic then some (styleName .customProperty name, given.code) else none
    | _ => none

/-- The code of the value that toggles apply to: the last computed one, or the known one. -/
def baseCode (name : String) (known : List (String × String)) (computed : List ComputedAttribute) : String :=
  let initial := (known.reverse.find? (·.1 == name)).map fun entry => stringLiteral entry.2
  computed.foldl (fun base entry =>
    match entry with
    | .whole n code => if n = name then code else base
    | .spread _ => base) (initial.getD (stringLiteral ""))

def pairs (entries : List (String × String)) : String :=
  "&[" ++ ", ".intercalate (entries.map fun (name, code) => "(" ++ stringLiteral name ++ ", " ++ code ++ ")") ++ "]"

/-- The part of an open tag that a computed attribute adds, unless toggles replace it. -/
def wholeCall (replaced : String → Bool) : ComputedAttribute → Gen (Option String)
  | .whole name code =>
    if replaced name then return none else return some (← call "ssr_attr" [stringLiteral name, code])
  | .spread code => return some (← call "ssr_spread" [code])

def toggleCall (name function convert : String) (known : List (String × String)) (computed : List ComputedAttribute)
    (toggles : List (String × String)) : Gen (List String) :=
  if toggles.isEmpty then pure []
  else do
    let converted ← toggles.mapM fun (name, code) => do return (name, ← call convert [code])
    pure [← call function [baseCode name known computed, pairs converted]]

/-- With toggles, `class` and `style` are not written but computed. -/
def ComputedAttributes.replaces (computed : ComputedAttributes) (name : String) : Bool :=
  (name == "class" && !computed.classes.isEmpty) || (name == "style" && !computed.styles.isEmpty)

def serverOpenTag (element : Element) (attributes : List Attribute) : Gen (List Chunk) := do
  let known := (StaticAttributes.ofAttributes attributes).merged
  let computed := ComputedAttributes.ofAttributes attributes
  let written := known.filter fun entry => !computed.replaces entry.1
  let wholes ← computed.attributes.filterMapM (wholeCall computed.replaces)
  let classes ← toggleCall "class" "classes" "truthy" known computed.attributes computed.classes
  let styles ← toggleCall "style" "styles" "attribute_value" known computed.attributes computed.styles
  return .markup ("<" ++ element.tag ++ String.join (written.map renderAttribute)) ::
    (wholes ++ classes ++ styles).map .part ++ [.markup ">"]

/-- Where a computed value stands: among the roots, as the only child of an element, or as one of several. -/
inductive Place where
  | root | soleChild | child
  deriving BEq, DecidableEq

def serverRegion (place : Place) (code : String) : Gen (List Chunk) := do
  match place with
  | .root => return [.part (← call "ssr_value" [code])]
  | .soleChild => return [.part (← call "ssr_child" [code])]
  | .child => return [.markup "<!--$-->", .part (← call "ssr_child" [code])]

def serverCode (chunks : List Chunk) : Gen String := do
  let literals := (fragments chunks).map stringLiteral
  let name ← Gen.hoist "__SSR" ("&[" ++ ", ".intercalate literals ++ "]")
  call "ssr" [name, "vec![" ++ ", ".intercalate (parts chunks) ++ "]"]

mutual

def serverSlot : Slot → Gen (Option String)
  | .none => return none
  | .text data => return some (stringLiteral data)
  | .expression given => return some given.code
  | .nested _ roots => do
    let chunks ← serverNodes .root roots
    return some (← serverCode chunks)

def serverNodes (place : Place) : List Node → Gen (List Chunk)
  | [] => return []
  | node :: rest => do
    let first ← serverNode place node
    let others ← serverNodes place rest
    return first ++ others

def serverNode (place : Place) : Node → Gen (List Chunk)
  | .text data => return [.markup (Entity.escapeAll data)]
  | .expression given _ =>
    if given.dynamic then serverRegion place given.code else return [.markup (Entity.escapeAll given.shown)]
  | .component component attributes slot => do
    let children ← serverSlot slot
    let code ← componentCall component.path attributes children
    serverRegion place code
  | .element element attributes children => do
    let start ← serverOpenTag element attributes
    let inner ← serverNodes (if element.childCount = 1 then .soleChild else .child) children
    return start ++ inner ++ (if element.isVoid then [] else [.markup ("</" ++ element.tag ++ ">")])

end

def server (blueprint : Blueprint) : Gen String := do
  let chunks ← serverNodes .root blueprint.roots
  serverCode chunks

end LiveMarkup.Codegen
