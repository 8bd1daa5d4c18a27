import LiveMarkup.Blueprint.Node

/-!
A blueprint as one sequence in document order, in which nesting is expressed by marks: an element is
followed by its attributes, a mark, its children between two marks if it has any, and a last mark.
-/

namespace LiveMarkup.Blueprint
open Template (Span)

mutual

inductive Item where
  | element (element : Element) (hasChildren : Bool)
  | component (component : Component) (slot : LinearSlot)
  | fragment
  | text (data : String)
  | expression (given : Value) (span : Span)
  | entry (given : Attribute)
  | elementEnd
  | attributesEnd
  | childrenStart
  | childrenEnd
  | fragmentEnd

inductive LinearSlot where
  | none
  | text (data : String)
  | expression (given : Value)
  | nested (items : List Item)

end

instance : Inhabited Item := ⟨.fragment⟩

def LinearSlot.isNone : LinearSlot → Bool
  | .none => true
  | _ => false

def inFragment (fragment : Bool) (items : List Item) : List Item :=
  if fragment then .fragment :: items ++ [.fragmentEnd] else items

mutual

def Node.linear : Node → List Item
  | .text data => [.text data]
  | .expression given span => [.expression given span]
  | .element element attributes children =>
    let inner := if children.isEmpty then [] else .childrenStart :: linears children ++ [.childrenEnd]
    .element element (!children.isEmpty) :: attributes.map .entry ++ .attributesEnd :: inner ++ [.elementEnd]
  | .component component attributes slot =>
    .component component slot.linear :: attributes.map .entry ++ [.attributesEnd, .elementEnd]

def Slot.linear : Slot → LinearSlot
  | .none => .none
  | .text data => .text data
  | .expression given => .expression given
  | .nested fragment roots => .nested (inFragment fragment (linears roots))

def linears : List Node → List Item
  | [] => []
  | node :: rest => node.linear ++ linears rest

end

def linear (blueprint : Blueprint) : List Item := inFragment blueprint.fragment (linears blueprint.roots)

def Item.opens : Item → Bool
  | .element .. => true
  | .component .. => true
  | _ => false

def Item.isElementEnd : Item → Bool
  | .elementEnd => true
  | _ => false

def Item.isFragment : Item → Bool
  | .fragment => true
  | _ => false

/-- How many items there are up to the end of the element that the first opens, `depth` more being open. -/
def lengthToEnd : (depth : Nat) → List Item → Nat
  | _, [] => 0
  | depth, item :: rest =>
    if item.opens then 1 + lengthToEnd (depth + 1) rest
    else if item.isElementEnd then
      if depth ≤ 1 then 1 else 1 + lengthToEnd (depth - 1) rest
    else 1 + lengthToEnd depth rest

def elementEnd (items : List Item) (start : Nat) : Nat := start + lengthToEnd 0 (items.drop start)

def Item.isAttributesEnd : Item → Bool
  | .attributesEnd => true
  | _ => false

/-- The items between the element at `start` and the mark behind its attributes. -/
def attributesOf (items : List Item) (start : Nat) : List Item :=
  (items.drop (start + 1)).takeWhile (!·.isAttributesEnd)

end LiveMarkup.Blueprint
