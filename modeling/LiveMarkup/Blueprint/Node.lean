import LiveMarkup.Blueprint.Value
import LiveMarkup.Template.Position

/-!
Blueprints: templates with every attribute classified and every embedded expression looked at. This is
what code is generated from.
-/

namespace LiveMarkup.Blueprint
open Template (Span)

inductive AttributeKind where
  | plain | toggle | style | customProperty | property
  deriving Repr, BEq, DecidableEq

inductive Attribute where
  | value (kind : AttributeKind) (name : String) (given : Value) (span : Span)
  | spread (code : String) (span : Span)
  | reference (code : String) (span : Span)
  | event (name : String) (handler : Value) (capture : Bool) (span : Span)
  | directive (name : String) (argument : Option String) (span : Span)
  deriving Repr, BEq, DecidableEq

/-- Whether an element needs a live reference because of this attribute. -/
def Attribute.dynamic : Attribute → Bool
  | .value kind _ given _ => kind == .property || given.dynamic
  | _ => true

/-- What is said of an element beside its attributes and children. -/
structure Element where
  tag : String
  isVoid : Bool
  isSvg : Bool
  /-- Direct children once fragments are gone. -/
  childCount : Nat
  /-- How many of them are elements or components. -/
  elementCount : Nat
  span : Span
  /-- Whether the element needs a live reference. -/
  dynamic : Bool
  deriving Repr, BEq, DecidableEq

/-- What is said of a component beside its attributes and slot. -/
structure Component where
  /-- The path of the component. -/
  path : String
  childCount : Nat
  elementCount : Nat
  span : Span
  deriving Repr, BEq, DecidableEq

mutual

inductive Node where
  | text (data : String)
  | expression (given : Value) (span : Span)
  | element (element : Element) (attributes : List Attribute) (children : List Node)
  | component (component : Component) (attributes : List Attribute) (slot : Slot)

inductive Slot where
  | none
  | text (data : String)
  | expression (given : Value)
  | nested (fragment : Bool) (roots : List Node)

end

instance : Inhabited Node := ⟨.text ""⟩

/-- Whether the parent of a node needs a live reference because of it. -/
def Node.dynamic : Node → Bool
  | .text _ => false
  | .expression given _ => given.dynamic
  | .element _ _ _ => false
  | .component _ _ _ => true

end LiveMarkup.Blueprint

namespace LiveMarkup

/-- The roots of a template; `fragment` says that they are rendered as a list. -/
structure Blueprint where
  fragment : Bool
  roots : List Blueprint.Node

end LiveMarkup
