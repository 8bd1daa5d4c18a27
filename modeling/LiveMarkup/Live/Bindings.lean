import LiveMarkup.Live.Props
import LiveMarkup.Live.World

/-!
Binding attributes, properties and listeners of elements to values and code.
-/

namespace LiveMarkup.Live
open Document
open Reactive

variable {γ τ : Type}

/-- The attribute that a value sets; a value that fits none is refused. -/
def Datum.toAttribute (datum : Datum) : LiveProgram γ τ (Option String) :=
  if datum.fitsAttribute then return datum.attribute? else .fault .noAttribute

/-- Binds an attribute, a class or a style property, now and whenever a changing value changes. -/
def bindTo (n : NodeId) (binding : Binding) (value : AttributeValue γ) : LiveProgram γ τ Unit :=
  match value with
  | .fixed value => alterDocument (binding.apply n value)
  | .dynamic source => do
    let _ ← Program.perform (.newEffect (.bind n binding source))

def bindProperty (n : NodeId) (name : String) (value : PropertyValue γ) : LiveProgram γ τ Unit :=
  match value with
  | .fixed datum => alterDocument (·.setProperty n name (.given datum))
  | .dynamic source => do
    let _ ← Program.perform (.newEffect (.bindProperty n name source))

/-- Adds a listener, which goes away with the current owner if there is one. -/
def listen (n : NodeId) (event : String) (capture : Bool) (code : γ) : LiveProgram γ τ ListenerId := do
  let id ← changeDocument (·.addListener n event capture code)
  if (← Program.perform .currentOwner).isSome then Program.perform (.onDispose (.unlisten n id))
  return id

def unlisten (n : NodeId) (id : ListenerId) : LiveProgram γ τ Bool := changeDocument (·.removeListener n id)

/-- Sets what an entry's name says: a property, a class, a style property or an attribute. -/
def applyEntry (n : NodeId) (name : String) (datum : Datum) (doc : Document γ Property) : Document γ Property :=
  let text := datum.entryText?
  match Props.afterStart? "prop:" name, Props.afterStart? "class:" name, Props.afterStart? "style:" name with
  | some property, _, _ => doc.setProperty n property (.given datum)
  | none, some toggle, _ => bindClass doc n toggle text.isSome
  | none, none, some property => bindStyle doc n property text
  | none, none, none => bindAttribute doc n name text

def spreadEntry (n : NodeId) (name : String) (entry : Entry γ) : LiveProgram γ τ Unit :=
  if name = "children" then return
  else match entry with
    | .handler code =>
      match Props.afterStart? "on:" name, Props.afterStart? "capture:" name with
      | some event, _ => do
        let _ ← listen n event false code
      | none, some event => do
        let _ ← listen n event true code
      | none, none => return
    | .value datum => alterDocument (applyEntry n name datum)
    | .getter code => do
      let _ ← Program.perform (.newEffect (.bindEntry n name code))
    | .children _ => return

/-- Applies all entries to an element; those that are asked stay bound. -/
def spread (n : NodeId) (props : Props γ) : LiveProgram γ τ Unit :=
  props.spreadOrder.forM fun (name, entry) => spreadEntry n name entry

def entryDatum? (props : Props γ) (name : String) : LiveProgram γ τ (Option Datum) :=
  match valueUnder? props name with
  | some (.value datum) => return some datum
  | some (.getter code) => do return some (← Program.call (.datum (.code code)))
  | _ => return none

def entryText? (props : Props γ) (name : String) : LiveProgram γ τ (Option String) := do
  return (← entryDatum? props name).bind Datum.entryText?

def AttributeValue.now : AttributeValue γ → LiveProgram γ τ (Option String)
  | .fixed value => return value
  | .dynamic source => Program.call (.attributeText source)

end LiveMarkup.Live
