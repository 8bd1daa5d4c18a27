import LiveMarkup.Document.Attributes
import LiveMarkup.Live.View

/-!
What components are given and elements are spread with: named entries, of which a later one replaces an earlier
one of the same name in its place.
-/

namespace LiveMarkup.Live.Props

variable {γ : Type}

def set (props : Props γ) (name : String) (entry : Entry γ) : Props γ := putEntry name entry props

def merge (sources : List (Props γ)) : Props γ :=
  sources.foldl (fun merged source => source.foldl (fun merged (name, entry) => merged.set name entry) merged) []

def childrenView (props : Props γ) : View γ :=
  match valueUnder? props "children" with
  | some (.children code) => .dynamic (.code code)
  | _ => .empty

def afterStart? (start name : String) : Option String :=
  if start.toList.isPrefixOf name.toList then some (String.ofList (name.toList.drop start.length)) else none

def isClientOnly (name : String) : Bool :=
  name == "children" || ["on:", "capture:", "prop:"].any fun start => (afterStart? start name).isSome

/-- Entries in the order in which they are spread: whole `class` and `style` values first. -/
def spreadOrder (props : Props γ) : Props γ :=
  let whole (entry : String × Entry γ) : Bool := entry.1 == "class" || entry.1 == "style"
  props.filter whole ++ props.filter fun entry => !whole entry

end LiveMarkup.Live.Props
