import LiveMarkup.Script.State
import LiveMarkup.Text.Quoted

/-!
A description of what a name stands for.
-/

namespace LiveMarkup.Script
open Document Live Text

variable {η π : Type}

def describeNode (doc : Document η π) (n : NodeId) : String :=
  if doc.isFragment n then "#fragment(" ++ doc.inner n ++ ")" else doc.outer n

mutual

def describeView {γ : Type} (doc : Document η π) : View γ → String
  | .empty => "Empty"
  | .text data => "Text(" ++ quoted data ++ ")"
  | .node n => "Node(" ++ describeNode doc n ++ ")"
  | .list items => "List([" ++ describeViews doc items ++ "])"
  | .dynamic _ => "Dynamic(..)"
  | .deferred _ => "Deferred(..)"
  | .html markup => "Html(" ++ quoted markup ++ ")"

def describeViews {γ : Type} (doc : Document η π) : List (View γ) → String
  | [] => ""
  | [item] => describeView doc item
  | item :: rest => describeView doc item ++ ", " ++ describeViews doc rest

end

def describeFields (name : String) (fields : List (String × String)) : String :=
  name ++ " \x7b " ++ ", ".intercalate (fields.map fun (field, value) => field ++ ": " ++ value) ++ " \x7d"

def describeId (id : Nat) : String := "NodeId(" ++ toString id ++ ")"

def describeNamed {κ : Type} (world : World (Closure κ) (Memory κ)) : Named κ → String
  | .value _ => ""
  | .node n => describeNode world.document n
  | .signal cell => describeFields "Signal" [("id", describeId cell)]
  | .computed cell => describeFields "Computed" [("id", describeId cell)]
  | .effect owner => describeFields "Effect" [("id", describeId owner)]
  | .scope owner => describeFields "Scope" [("id", describeId owner)]
  | .view v => describeView world.document v
  | .props p => "\x7b" ++ ", ".intercalate (p.map fun (name, _) => quoted name) ++ "\x7d"
  | .reference id =>
    match (world.references[id]?).join with
    | some n => "NodeRef(Some(" ++ describeNode world.document n ++ "))"
    | none => "NodeRef(None)"
  | .listener n id =>
    describeFields "Listener" [("node", describeNode world.document n), ("id", "ListenerId(" ++ toString id ++ ")")]
  | .event _ => ""
  | .template root => describeFields "Template" [("root", describeNode world.document root)]

end LiveMarkup.Script
