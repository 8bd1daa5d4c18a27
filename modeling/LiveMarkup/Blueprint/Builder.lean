import LiveMarkup.Blueprint.Node
import LiveMarkup.Markup.Element
import LiveMarkup.Template.Tree

/-!
From template trees to blueprints. Fragments are spliced into their parents, attributes are classified by
the part of their name before the colon, and the first fault in the source is reported.
-/

namespace LiveMarkup.Blueprint
open Template (Span CompileError Cause AttributeValue)

mutual

def splice : Template.Tree → List Template.Tree
  | .fragment children _ => flatten children
  | tree => [tree]

def flatten : List Template.Tree → List Template.Tree
  | [] => []
  | tree :: rest => splice tree ++ flatten rest

end

def isElement : Template.Tree → Bool
  | .element .. => true
  | _ => false

def analyze (code : String) (span : Span) : Except CompileError Value :=
  match analyze? code with
  | some value => .ok value
  | none => .error (.ofSpan (.invalidExpression code) span)

def analyzeHandler (code : String) (span : Span) : Except CompileError Value :=
  match analyzeHandler? code with
  | some value => .ok value
  | none => .error (.ofSpan (.invalidExpression code) span)

def attributeValue (value : Option AttributeValue) (span : Span) : Except CompileError Value :=
  match value with
  | none => .ok .present
  | some (.literal text) => .ok (.ofText text)
  | some (.expression code) => analyze code span

def splitName (name : String) : Option String × String :=
  match Text.splitOnce ':' name.toList with
  | some (space, rest) => (some (String.ofList space), String.ofList rest)
  | none => (none, name)

def elementAttribute : Template.Attribute → Except CompileError Attribute
  | .spread code span => .ok (.spread code span)
  | .named name value span =>
    if name = "ref" then
      match value with
      | some (.expression code) => .ok (.reference code span)
      | _ => .error (.ofSpan (.expressionRequired name) span)
    else
      let (space, rest) := splitName name
      let valued (kind : AttributeKind) (name : String) : Except CompileError Attribute := do
        return .value kind name (← attributeValue value span) span
      let handled (capture : Bool) : Except CompileError Attribute :=
        match value with
        | some (.expression code) => do return .event rest (← analyzeHandler code span) capture span
        | _ => .error (.ofSpan (.expressionRequired name) span)
      match space with
      | none => valued .plain rest
      | some "attr" => valued .plain rest
      | some "xlink" => valued .plain name
      | some "xml" => valued .plain name
      | some "xmlns" => valued .plain name
      | some "class" => valued .toggle rest
      | some "style" => valued .style rest
      | some "var" => valued .customProperty rest
      | some "prop" => valued .property rest
      | some "on" => handled false
      | some "capture" => handled true
      | some "use" =>
        let argument := value.map fun
          | .literal text => Text.quoted text
          | .expression code => code
        .ok (.directive rest argument span)
      | some other => .error (.ofSpan (.unknownNamespace other name) span)

/-- Every attribute of a component is passed on under its written name. -/
def componentAttribute : Template.Attribute → Except CompileError Attribute
  | .spread code span => .ok (.spread code span)
  | .named name value span => do return .value .plain name (← attributeValue value span) span

def componentPath (tag : String) : String :=
  "::".intercalate ((Text.splitAt '.' tag.toList).map String.ofList)

mutual

/-- A child; `inSvg` says that it stands under an element of SVG. Fragments are gone by then. -/
def node (inSvg : Bool) : Template.Tree → Except CompileError (List Node)
  | .text data _ => .ok [.text data]
  | .expression code span => do return [.expression (← analyze code span) span]
  | .fragment children _ => nodes inSvg children
  | .element tag attributes children _ span => do
    let flat := flatten children
    let childCount := flat.length
    let elementCount := (flat.filter isElement).length
    if Markup.Element.isComponent tag then
      let slot ← match flat with
        | [] => pure .none
        | [.text data _] => pure (.text data)
        | [.expression code span] => do
          let value ← analyze code span
          match value.constant with
          | some (.text text) => pure (.text text)
          | _ => pure (.expression value)
        | _ => do
          let single := match children with
            | [.fragment ..] => true
            | _ => false
          let roots ← nodes false children
          pure (.nested (childCount != 1 || single) roots)
      let attributes ← attributes.mapM componentAttribute
      return [.component ⟨componentPath tag, childCount, elementCount, span⟩ attributes slot]
    else
      let isSvg := inSvg || Markup.Element.isSvgName tag
      let isVoid := !isSvg && Markup.Element.isVoid tag
      if isVoid && childCount != 0 then throw (.ofSpan (.voidChildren tag) span)
      let attributes ← attributes.mapM elementAttribute
      let children ← nodes (isSvg && tag != "foreignObject") children
      let dynamic := attributes.any Attribute.dynamic || children.any Node.dynamic
      return [.element ⟨tag, isVoid, isSvg, childCount, elementCount, span, dynamic⟩ attributes children]

def nodes (inSvg : Bool) : List Template.Tree → Except CompileError (List Node)
  | [] => .ok []
  | tree :: rest => do
    let first ← node inSvg tree
    let others ← nodes inSvg rest
    return first ++ others

end

/-- The blueprint of a template: one root stands for itself, several or a fragment are a list. -/
def build (roots : List Template.Tree) : Except CompileError Blueprint := do
  let single := match roots with
    | [.fragment ..] => true
    | _ => false
  return ⟨(flatten roots).length != 1 || single, ← nodes false roots⟩

end LiveMarkup.Blueprint
