import LiveMarkup.Document.Attributes
import LiveMarkup.Live.Datum

/-!
Attributes that are bound to values. Single classes and style properties are remembered at the element, so that
giving it another `class` or `style` attribute keeps them.
-/

namespace LiveMarkup.Live
open Document Markup

/-- The classes and style properties that are bound one by one, with their last values. -/
structure Toggles where
  classes : List (String × Bool) := []
  styles : List (String × Option String) := []
  deriving Repr

/-- What a property of a node holds: a value as it was given, a value that keeps up with a source, or the toggles. -/
inductive Property where
  | given (datum : Datum)
  | followed (datum : Datum)
  | toggles (toggles : Toggles)
  deriving Repr

def togglesName : String := "$toggles"

section

variable {η : Type}

def toggles? (doc : Document η Property) (n : NodeId) : Option Toggles :=
  match doc.property? n togglesName with
  | some (.toggles toggles) => some toggles
  | _ => none

def remember (doc : Document η Property) (n : NodeId) (change : Toggles → Toggles) : Document η Property :=
  doc.setProperty n togglesName (.toggles (change ((toggles? doc n).getD {})))

/-- Gives an attribute its normal form; without content it goes away. -/
def normalizeAttribute (doc : Document η Property) (n : NodeId) (name : String) (normal : String → String) :
    Document η Property :=
  match doc.attribute? n name with
  | none => doc
  | some current =>
    let text := normal current
    if text = "" then doc.removeAttribute n name
    else if text = current then doc
    else doc.setAttribute n name text

def normalClass (text : String) : String := " ".intercalate (Text.wordsOf text)

def normalStyle (text : String) : String := Style.render (Style.parse text)

def bindClass (doc : Document η Property) (n : NodeId) (name : String) (present : Bool) : Document η Property :=
  let doc := remember doc n fun toggles => { toggles with classes := putEntry name present toggles.classes }
  normalizeAttribute (doc.toggleClass n name present) n "class" normalClass

def bindStyle (doc : Document η Property) (n : NodeId) (name : String) (value : Option String) : Document η Property :=
  let doc := remember doc n fun toggles => { toggles with styles := putEntry name value toggles.styles }
  normalizeAttribute (doc.setStyle n name value) n "style" normalStyle

/-- Sets or removes an attribute. What is bound of a `class` or `style` is put back. -/
def bindAttribute (doc : Document η Property) (n : NodeId) (name : String) (value : Option String) :
    Document η Property :=
  let doc := match value with
    | some value => doc.setAttribute n name value
    | none => doc.removeAttribute n name
  match toggles? doc n with
  | none => doc
  | some toggles =>
    if name = "class" then
      let doc := toggles.classes.foldl (fun doc (name, present) => doc.toggleClass n name present) doc
      normalizeAttribute doc n "class" normalClass
    else if name = "style" then
      let doc := toggles.styles.foldl (fun doc (name, value) => doc.setStyle n name value) doc
      normalizeAttribute doc n "style" normalStyle
    else doc

end

inductive Binding where
  | plain (name : String)
  | toggle (name : String)
  | style (name : String)
  deriving Repr, BEq, DecidableEq

namespace Binding

def customProperty (name : String) : Binding := .style ("--" ++ name)

def apply {η : Type} (binding : Binding) (n : NodeId) (value : Option String) (doc : Document η Property) :
    Document η Property :=
  match binding with
  | .plain name => bindAttribute doc n name value
  | .toggle name => bindClass doc n name value.isSome
  | .style name => bindStyle doc n name value

end Binding
end LiveMarkup.Live
