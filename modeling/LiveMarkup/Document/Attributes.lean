import LiveMarkup.Document.Basic
import LiveMarkup.Markup.Style

/-!
The attributes of a node, the two of them that are lists (classes and style declarations), and its
properties, which are no markup.
-/

namespace LiveMarkup

def valueUnder? {α : Type} (entries : List (String × α)) (name : String) : Option α :=
  (entries.find? (·.1 == name)).map Prod.snd

/-- Gives the entry of a name a value; a new name goes to the end. -/
def putEntry {α : Type} (name : String) (value : α) : List (String × α) → List (String × α)
  | [] => [(name, value)]
  | (n, v) :: rest => if n = name then (n, value) :: rest else (n, v) :: putEntry name value rest

namespace Document
open Text Markup

variable {η π : Type}

def attributes (doc : Document η π) (n : NodeId) : Attributes := ((doc.node? n).map Node.attributes).getD []

def attribute? (doc : Document η π) (n : NodeId) (name : String) : Option String := valueUnder? (doc.attributes n) name

def setAttribute (doc : Document η π) (n : NodeId) (name value : String) : Document η π :=
  doc.modifyNode n fun node => { node with attributes := putEntry name value node.attributes }

def removeAttribute (doc : Document η π) (n : NodeId) (name : String) : Document η π :=
  doc.modifyNode n fun node => { node with attributes := node.attributes.filter (·.1 != name) }

def classes (doc : Document η π) (n : NodeId) : List String :=
  ((doc.attribute? n "class").map wordsOf).getD []

def hasClass (doc : Document η π) (n : NodeId) (name : String) : Bool := (doc.classes n).contains name

def toggled (names : List String) (name : String) (present : Bool) : List String :=
  if present then if names.contains name then names else names ++ [name]
  else names.filter (· != name)

/-- Makes a class present or not. Nothing is written when it already is as asked. -/
def toggleClass (doc : Document η π) (n : NodeId) (name : String) (present : Bool) : Document η π :=
  let names := doc.classes n
  if names.contains name = present then doc
  else
    let names := toggled names name present
    if names.isEmpty then doc.removeAttribute n "class" else doc.setAttribute n "class" (" ".intercalate names)

def styles (doc : Document η π) (n : NodeId) : Style.Declarations := Style.parse ((doc.attribute? n "style").getD "")

def style? (doc : Document η π) (n : NodeId) (name : String) : Option String := valueUnder? (doc.styles n) name

/-- Sets or removes a style property and writes the declarations anew. -/
def setStyle (doc : Document η π) (n : NodeId) (name : String) (value : Option String) : Document η π :=
  let declarations := doc.styles n
  let write (declarations : Style.Declarations) : Document η π :=
    if declarations.isEmpty then doc.removeAttribute n "style"
    else doc.setAttribute n "style" (Style.render declarations)
  match value with
  | some value => write (putEntry name value declarations)
  | none =>
    if declarations.any (·.1 == name) then write (declarations.filter (·.1 != name)) else doc

def property? (doc : Document η π) (n : NodeId) (name : String) : Option π :=
  (doc.node? n).bind fun node => valueUnder? node.properties name

def setProperty (doc : Document η π) (n : NodeId) (name : String) (value : π) : Document η π :=
  doc.modifyNode n fun node => { node with properties := putEntry name value node.properties }

end Document
end LiveMarkup
