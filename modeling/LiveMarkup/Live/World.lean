import LiveMarkup.Document.Content
import LiveMarkup.Document.Listeners
import LiveMarkup.Live.Region
import LiveMarkup.Live.Toggles
import LiveMarkup.Live.View
import LiveMarkup.Reactive.Run

/-!
Live documents: what there is beside the reactive graph, the procedures that are run by name, and programs over both.
`γ` is the type of code of the program at hand and `τ` its own state.
-/

namespace LiveMarkup.Live
open Document
open Reactive

abbrev RegionId := Nat

abbrev ClaimId := Nat

abbrev EventId := Nat

abbrev ReferenceId := Nat

structure Event where
  kind : String
  bubbles : Bool
  target : Option NodeId := none
  current : Option NodeId := none
  stopped : Bool := false
  prevented : Bool := false
  deriving Repr

structure Lazy (γ : Type) where
  code : Option γ
  value : Option (View γ) := none
  owner : Option OwnerId

inductive Frame where
  | claiming (claim : ClaimId)
  | fresh
  deriving Repr

structure Hydration where
  claims : Nat := 0
  misses : Nat := 0
  deriving Repr, BEq, DecidableEq

/-- A region and the claim that its first showing is to take. -/
structure Mounted where
  region : Region
  pending : Option ClaimId
  deriving Repr

structure World (γ τ : Type) where
  document : Document γ Property := {}
  /-- What showing does now; the innermost first. -/
  frames : List Frame := []
  hydration : Hydration := {}
  claims : Array Claim := #[]
  lazies : Array (Lazy γ) := #[]
  regions : Array Mounted := #[]
  references : Array (Option NodeId) := #[]
  events : Array Event := #[]
  host : τ

inductive Procedure (γ : Type) : Type → Type where
  /-- What a source shows now. -/
  | view (source : Source γ) : Procedure γ (View γ)
  /-- The attribute that a source sets now. -/
  | attributeText (source : Source γ) : Procedure γ (Option String)
  /-- The value of a source now. -/
  | datum (source : Source γ) : Procedure γ Datum
  /-- Code of the program at hand, for its own sake. -/
  | act (code : γ) : Procedure γ Unit
  | handle (code : γ) (event : EventId) : Procedure γ Unit
  /-- What a view consists of now. -/
  | items (view : View γ) : Procedure γ (List Item)
  /-- The markup of a view. -/
  | markup (view : View γ) : Procedure γ String
  /-- Shows a view in a region. -/
  | refresh (region : RegionId) (view : View γ) : Procedure γ Unit
  | bind (node : NodeId) (binding : Binding) (source : Source γ) : Procedure γ Unit
  | bindProperty (node : NodeId) (name : String) (source : Source γ) : Procedure γ Unit
  /-- Applies an entry that is spread over an element. -/
  | bindEntry (node : NodeId) (name : String) (code : γ) : Procedure γ Unit
  | unlisten (node : NodeId) (listener : ListenerId) : Procedure γ Unit

abbrev LiveProgram (γ τ : Type) := Program (Procedure γ) (World γ τ) Datum

structure Host (γ τ : Type) where
  view : γ → LiveProgram γ τ (View γ)
  attributeText : γ → LiveProgram γ τ (Option String)
  datum : γ → LiveProgram γ τ Datum
  act : γ → LiveProgram γ τ Unit
  handle : γ → EventId → LiveProgram γ τ Unit

variable {γ τ : Type}

def seeDocument {ι : Type} (view : Document γ Property → ι) : LiveProgram γ τ ι :=
  Program.seeing fun world => view world.document

def changeDocument {ι : Type} (change : Document γ Property → ι × Document γ Property) : LiveProgram γ τ ι :=
  Program.changing fun world =>
    let (result, document) := change world.document
    (result, { world with document })

def alterDocument (change : Document γ Property → Document γ Property) : LiveProgram γ τ Unit :=
  Program.altering fun world => { world with document := change world.document }

def readFragment (markup : String) : LiveProgram γ τ NodeId := do
  let reading := Markup.read markup
  let fragment ← changeDocument (·.ofTrees reading.forest)
  if reading.complete then return fragment else .fault .unreadable

def stillOwned (owner : Option OwnerId) : LiveProgram γ τ Bool :=
  match owner with
  | none => return true
  | some owner => Program.perform (.ownerAlive owner)

end LiveMarkup.Live
