import LiveMarkup.Markup.Element
import LiveMarkup.Markup.Entity

/-!
Markup as a tree: texts, comments and elements with their attributes and children. A tree is written
out by `Tree.render`, compared by `Tree.same` and counted by `Tree.size`.
-/

namespace LiveMarkup.Markup

abbrev Attributes := List (String × String)

inductive Tree where
  | text (data : String)
  | comment (data : String)
  | element (tag : String) (svg : Bool) (attributes : Attributes) (children : List Tree)
  deriving Repr, Inhabited

namespace Tree

def size : Tree → Nat
  | .text _ => 1
  | .comment _ => 1
  | .element _ _ _ children => 1 + sizes children
where
  sizes : List Tree → Nat
    | [] => 0
    | tree :: rest => size tree + sizes rest

def renderAttribute (entry : String × String) : String :=
  " " ++ entry.1 ++ "=\"" ++ Entity.escapeAttribute entry.2 ++ "\""

def openTag (tag : String) (attributes : Attributes) : String :=
  "<" ++ tag ++ String.join (attributes.map renderAttribute) ++ ">"

/-- The markup of a tree; `raw` says that it stands in an element of raw text. -/
def renderIn (raw : Bool) : Tree → String
  | .text data => if raw then data else Entity.escapeContent data
  | .comment data => "<!--" ++ data ++ "-->"
  | .element tag svg attributes children =>
    if !svg && Element.isVoid tag then openTag tag attributes
    else openTag tag attributes ++ renderAll (Element.isRawText tag) children ++ "</" ++ tag ++ ">"
where
  renderAll (raw : Bool) : List Tree → String
    | [] => ""
    | tree :: rest => renderIn raw tree ++ renderAll raw rest

def render (tree : Tree) : String := renderIn false tree

def renderForest (forest : List Tree) : String := renderIn.renderAll false forest

def textContent : Tree → String
  | .text data => data
  | .comment data => data
  | .element _ _ _ children => texts children
where
  texts : List Tree → String
    | [] => ""
    | .comment _ :: rest => texts rest
    | tree :: rest => textContent tree ++ texts rest

def sameAttributes (a b : Attributes) : Bool :=
  a.length == b.length && a.all (b.contains ·)

def same : Tree → Tree → Bool
  | .text a, .text b => a == b
  | .comment a, .comment b => a == b
  | .element tag svg attributes children, .element tag' svg' attributes' children' =>
    tag == tag' && svg == svg' && sameAttributes attributes attributes' && sameAll children children'
  | _, _ => false
where
  sameAll : List Tree → List Tree → Bool
    | [], [] => true
    | a :: as, b :: bs => same a b && sameAll as bs
    | _, _ => false

end Tree
end LiveMarkup.Markup
