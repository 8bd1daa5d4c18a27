import LiveMarkup.Text.Blank

/-!
The declarations of a `style` attribute as pairs of property and value.
-/

namespace LiveMarkup.Markup.Style
open Text

abbrev Declarations := List (String × String)

/-- One declaration; text without a colon or without a property is none. -/
def declaration? (cs : List Char) : Option (String × String) :=
  (splitOnce ':' cs).bind fun (name, value) =>
    let name := trim name
    if name.isEmpty then none else some (String.ofList name, String.ofList (trim value))

def parse (style : String) : Declarations :=
  (splitAt ';' style.toList).filterMap declaration?

def render (declarations : Declarations) : String :=
  " ".intercalate (declarations.map fun (name, value) => name ++ ": " ++ value ++ ";")

def put (declarations : Declarations) (name value : String) : Declarations :=
  match declarations with
  | [] => [(name, value)]
  | (n, v) :: rest => if n = name then (n, value) :: rest else (n, v) :: put rest name value

end LiveMarkup.Markup.Style
