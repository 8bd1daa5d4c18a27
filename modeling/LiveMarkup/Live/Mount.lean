import LiveMarkup.Live.Showing

/-!
Putting views into a document and keeping them up to date. A reactive view gets one reaction, and only its first
showing may take nodes that are there already.
-/

namespace LiveMarkup.Live
open Document
open Reactive

variable {γ τ : Type}

def newClaim (claim : Claim) : LiveProgram γ τ ClaimId :=
  Program.changing fun world => (world.claims.size, { world with claims := world.claims.push claim })

def takePending (id : RegionId) : LiveProgram γ τ (Option ClaimId) :=
  Program.changing fun world =>
    ((world.regions[id]?).bind Mounted.pending,
      { world with regions := world.regions.modify id ({ · with pending := none }) })

def alterRegion (id : RegionId)
    (change : Region → Document γ Property → Region × Document γ Property) : LiveProgram γ τ Unit :=
  Program.altering fun world =>
    match world.regions[id]? with
    | none => world
    | some mounted =>
      let (region, document) := change mounted.region world.document
      { world with document, regions := world.regions.modify id ({ · with region }) }

def adopt (id : RegionId) (items : List Item) (claim : ClaimId) (live : Bool) : LiveProgram γ τ Unit :=
  Program.altering fun world =>
    match world.regions[id]?, world.claims[claim]? with
    | some mounted, some claim =>
      let adoption := mounted.region.adopt items claim live world.document
      let counts := world.hydration
      { world with
        document := adoption.document
        regions := world.regions.modify id ({ · with region := adoption.region })
        hydration :=
          if adoption.matched then { counts with claims := counts.claims + 1 }
          else { counts with misses := counts.misses + 1 } }
    | _, _ => world

def regionLives (id : RegionId) : LiveProgram γ τ Bool := do
  stillOwned (← Program.seeing fun world => (world.regions[id]?).bind (·.region.owner))

/-- Shows items in a region, unless it may no longer be changed. -/
def showItems (id : RegionId) (items : List Item) : LiveProgram γ τ Unit := do
  if ← regionLives id then alterRegion id fun region doc => region.update items doc

def refresh (id : RegionId) (view : View γ) : LiveProgram γ τ Unit := do
  match ← takePending id with
  | some claim =>
    let items ← inFrame (.claiming claim) view.items
    adopt id (mergeItems items) claim (← regionLives id)
  | none =>
    let items ← inFrame .fresh view.items
    showItems id (mergeItems items)

/-- Shows a view in a new region, once or as often as what it reads changes. -/
def mount (region : Region) (view : View γ) (pending : Option ClaimId) : LiveProgram γ τ Unit := do
  let owner ← Program.perform .currentOwner
  let id ← Program.changing fun world =>
    (world.regions.size, { world with regions := world.regions.push ⟨{ region with owner }, pending⟩ })
  if view.isReactive then
    let _ ← Program.perform (.newEffect (.refresh id view))
  else Program.untracked (refresh id view)

/-- Shows a view under a parent, before a node or at the end. -/
def insert (parent : NodeId) (view : View γ) (before : Option NodeId) : LiveProgram γ τ Unit := do
  let pending ← if ← isHydrating then
      let claim ← seeDocument fun doc =>
        match before with
        | none => Claim.ofParent doc parent
        | some before => Claim.make parent (doc.firstChild? parent) (some before)
      pure (some (← newClaim claim))
    else pure none
  mount { parent, before } view pending

def insertAtMarker (marker : NodeId) (view : View γ) : LiveProgram γ τ Unit := do
  match ← seeDocument (·.parent? marker) with
  | none => return
  | some parent =>
    let pending ← if ← isHydrating then
        match ← seeDocument fun doc => Claim.ofMarker? doc marker with
        | some claim => pure (some (← newClaim claim))
        | none => pure none
      else pure none
    mount { parent, start := some marker } view pending

def render (build : LiveProgram γ τ (View γ)) (container : NodeId) : LiveProgram γ τ OwnerId := do
  let ((), root) ← Program.underRoot do insert container (← build) none
  return root

/-- Shows what a program builds over the nodes that a container holds, under a new root, and counts how much of
them was taken. -/
def hydrate (build : LiveProgram γ τ (View γ)) (container : NodeId) : LiveProgram γ τ (OwnerId × Hydration) := do
  Program.altering fun world => { world with hydration := {} }
  let claim ← newClaim (← seeDocument fun doc => Claim.ofParent doc container)
  let ((), root) ← Program.underRoot do
    let view ← inFrame (.claiming claim) build
    mount { parent := container } view (some claim)
  return (root, ← Program.seeing World.hydration)

def renderToString (build : LiveProgram γ τ (View γ)) : LiveProgram γ τ String := do
  let (markup, root) ← Program.underRoot do (← build).markup
  Program.perform (.dispose root)
  return markup

end LiveMarkup.Live
