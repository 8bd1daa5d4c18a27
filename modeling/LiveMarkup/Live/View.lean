import LiveMarkup.Document.Node
import LiveMarkup.Live.Datum
import LiveMarkup.Reactive.Graph

/-!
Views: what is shown in one place of a document. `γ` is the type of code that the program at hand runs when a
view is asked for what it shows now.
-/

namespace LiveMarkup.Live
open Document (NodeId)
open Reactive (CellId)

/-- Where a changing value comes from: code, or a cell of the graph. -/
inductive Source (γ : Type) where
  | code (code : γ)
  | cell (cell : CellId)
  deriving Repr

abbrev LazyId := Nat

inductive View (γ : Type) where
  | empty
  | text (data : String)
  | node (node : NodeId)
  | list (items : List (View γ))
  /-- Asked anew whenever what it reads changes. -/
  | dynamic (source : Source γ)
  /-- Asked once, when it is first shown. -/
  | deferred (id : LazyId)
  /-- Markup to be shown as it is. -/
  | html (markup : String)
  deriving Repr, Inhabited

namespace View

variable {γ : Type}

/-- Whether showing a view takes a reaction: it is dynamic, or a list in which something is. -/
def isReactive : View γ → Bool
  | .dynamic _ => true
  | .list items => anyReactive items
  | _ => false
where
  anyReactive : List (View γ) → Bool
    | [] => false
    | item :: rest => isReactive item || anyReactive rest

mutual

/-- What a value shows: booleans and missing values nothing, lists their items, others their text. -/
def ofDatum : Datum → View γ
  | .list items => .list (ofData items)
  | .some content => ofDatum content
  | .integer kind value => .text (Datum.integer kind value).shown
  | .float kind value => .text (Datum.float kind value).shown
  | .text _ data => .text data
  | .char value => .text (String.singleton value)
  | .unit => .empty
  | .bool _ => .empty
  | .none => .empty

def ofData : List Datum → List (View γ)
  | [] => []
  | item :: rest => ofDatum item :: ofData rest

end

def ofNode? (node : Option NodeId) : View γ := (node.map View.node).getD .empty

end View

/-- The value of an attribute: fixed, present or absent, or changing. -/
inductive AttributeValue (γ : Type) where
  | fixed (value : Option String)
  | dynamic (source : Source γ)
  deriving Repr

inductive PropertyValue (γ : Type) where
  | fixed (value : Datum)
  | dynamic (source : Source γ)
  deriving Repr

/-- One entry of what a component is given or an element is spread with. -/
inductive Entry (γ : Type) where
  | value (datum : Datum)
  /-- Asked at every read. -/
  | getter (code : γ)
  | children (code : γ)
  | handler (code : γ)
  deriving Repr

/-- Named entries in the order in which the names came first. -/
abbrev Props (γ : Type) := List (String × Entry γ)

end LiveMarkup.Live
