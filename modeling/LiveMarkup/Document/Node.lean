import LiveMarkup.Markup.Tree

/-!
What is stored of one node of a document. Nodes refer to each other by number; `η` is what listeners call
and `π` what properties hold.
-/

namespace LiveMarkup.Document

abbrev NodeId := Nat

abbrev ListenerId := Nat

inductive Kind where
  | element (tag : String) (svg : Bool)
  | text
  | comment
  | fragment
  deriving Repr, BEq, DecidableEq

namespace Kind

def tag? : Kind → Option String
  | .element tag _ => some tag
  | _ => none

def isElement : Kind → Bool
  | .element _ _ => true
  | _ => false

def isSvg : Kind → Bool
  | .element _ svg => svg
  | _ => false

end Kind

structure Listener (η : Type) where
  id : ListenerId
  event : String
  capture : Bool
  handler : η
  deriving Repr

structure Node (η π : Type) where
  kind : Kind
  /-- The characters of a text or comment. -/
  data : String := ""
  attributes : Markup.Attributes := []
  properties : List (String × π) := []
  listeners : List (Listener η) := []
  parent : Option NodeId := none
  children : List NodeId := []
  deriving Repr

/-- How much has been done to a document: nodes made, put somewhere and taken away. -/
structure Changes where
  created : Nat := 0
  inserted : Nat := 0
  removed : Nat := 0
  deriving Repr, BEq, DecidableEq

def Changes.since (later earlier : Changes) : Changes :=
  ⟨later.created - earlier.created, later.inserted - earlier.inserted, later.removed - earlier.removed⟩

end LiveMarkup.Document
