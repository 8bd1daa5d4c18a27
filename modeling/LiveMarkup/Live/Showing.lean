import LiveMarkup.Live.World

/-!
What a view shows: as items for a region, or as markup. Dynamic parts are asked on the way.
-/

namespace LiveMarkup.Live
open Document
open Reactive

variable {γ τ : Type}

/-- The view of a lazy one. The first time its code runs for the owner that made it, and untracked; asked again
meanwhile it shows nothing. -/
def force (id : LazyId) : LiveProgram γ τ (View γ) := do
  let found ← Program.seeing fun world => world.lazies[id]?
  match found with
  | none => return .empty
  | some found =>
    match found.value, found.code with
    | some view, _ => return view
    | none, none => return .empty
    | none, some code =>
      Program.altering fun world => { world with lazies := world.lazies.modify id ({ · with code := none }) }
      let run := Program.call (.view (.code code))
      let view ← match found.owner with
        | some owner => Program.ownedBy owner run
        | none => Program.untracked run
      Program.altering fun world => { world with lazies := world.lazies.modify id ({ · with value := some view }) }
      return view

mutual

/-- What a view consists of, before adjacent texts become one. -/
def View.items : View γ → LiveProgram γ τ (List Item)
  | .empty => return []
  | .text data => return [.text data]
  | .node n =>
    seeDocument fun doc => if doc.isFragment n then (doc.children n).map .node else [.node n]
  | .list views => View.itemsOfAll views
  | .dynamic source => do Program.call (.items (← Program.call (.view source)))
  | .deferred id => do Program.call (.items (← force id))
  | .html markup => do
    let fragment ← readFragment markup
    changeDocument fun doc =>
      let nodes := doc.children fragment
      (nodes.map .node, doc.orphan nodes)

def View.itemsOfAll : List (View γ) → LiveProgram γ τ (List Item)
  | [] => return []
  | view :: rest => do
    let items ← View.items view
    return items ++ (← View.itemsOfAll rest)

end

mutual

/-- The markup of a view: texts are escaped and nodes written out. -/
def View.markup : View γ → LiveProgram γ τ String
  | .empty => return ""
  | .text data => return Markup.Entity.escapeAll data
  | .node n => seeDocument fun doc => if doc.isFragment n then doc.inner n else doc.outer n
  | .list views => View.markupOfAll views
  | .dynamic source => do Program.call (.markup (← Program.call (.view source)))
  | .deferred id => do Program.call (.markup (← force id))
  | .html markup => return markup

def View.markupOfAll : List (View γ) → LiveProgram γ τ String
  | [] => return ""
  | view :: rest => do
    let markup ← View.markup view
    return markup ++ (← View.markupOfAll rest)

end

/-- Runs a program while showing takes the nodes of a claim, or makes its own. -/
def inFrame {ι : Type} (frame : Frame) (body : LiveProgram γ τ ι) : LiveProgram γ τ ι := do
  Program.altering fun world => { world with frames := frame :: world.frames }
  let result ← body
  Program.altering fun world => { world with frames := world.frames.drop 1 }
  return result

def World.isHydrating (world : World γ τ) : Bool :=
  match world.frames with
  | .claiming _ :: _ => true
  | _ => false

def isHydrating : LiveProgram γ τ Bool := Program.seeing World.isHydrating

/-- A view that runs code once when it is first shown, for the owner that is current now. -/
def deferred (code : γ) : LiveProgram γ τ (View γ) := do
  let owner ← Program.perform .currentOwner
  Program.changing fun world =>
    (.deferred world.lazies.size, { world with lazies := world.lazies.push { code := some code, owner } })

end LiveMarkup.Live
