import LiveMarkup.Card.Data
import LiveMarkup.Live.Dispatch
import LiveMarkup.Live.Meaning
import LiveMarkup.Live.Template

/-!
Cards in a live document: every part of a card is a cell, and the nodes of a card follow the cells.
-/

namespace LiveMarkup.Card
open Document Live Reactive

structure Cells where
  kind : CellId
  active : CellId
  tone : CellId
  title : CellId
  count : CellId
  items : CellId
  deriving Repr

inductive Code where
  /-- Builds the items. -/
  | items (cell : CellId)
  /-- Raises the count. -/
  | raise (cell : CellId)
  deriving Repr

/-- What there are templates of. -/
inductive Shape where
  | card | item
  deriving Repr, DecidableEq

def Shape.markup : Shape → String
  | .card => "<div><h1></h1><p>Count: <!--$--></p><button>+</button><ul></ul></div>"
  | .item => "<li></li>"

/-- The templates, read when they are first needed. -/
structure Templates where
  root : Shape → Option NodeId := fun _ => none

abbrev CardProgram := LiveProgram Code Templates

def countKind : IntegerKind := ⟨true, .bits32⟩

def countDatum (count : Int) : Datum := .integer countKind count

def toneDatum (tone : Option String) : Datum := .ofOption (tone.map .string)

def itemsDatum (items : List String) : Datum := .list (items.map .string)

def newCells (card : Card) : CardProgram Cells := do
  let kind ← Program.perform (.newSignal (.string card.kind))
  let active ← Program.perform (.newSignal (.bool card.active))
  let tone ← Program.perform (.newSignal (toneDatum card.tone))
  let title ← Program.perform (.newSignal (.string card.title))
  let count ← Program.perform (.newSignal (countDatum card.count))
  let items ← Program.perform (.newSignal (itemsDatum card.items))
  return { kind, active, tone, title, count, items }

def Templates.keep (templates : Templates) (shape : Shape) (root : NodeId) : Templates where
  root other := if other = shape then some root else templates.root other

def template (shape : Shape) : CardProgram NodeId := do
  match ← Program.seeing fun world => world.host.root shape with
  | some root => return root
  | none =>
    let root ← newTemplate shape.markup
    Program.altering fun world => { world with host := world.host.keep shape root }
    return root

def dress (cells : Cells) (root heading : NodeId) : CardProgram Unit := do
  bindTo root (.plain "class") (.dynamic (.cell cells.kind))
  bindTo root (.toggle "active") (.dynamic (.cell cells.active))
  bindTo root (.style "color") (.dynamic (.cell cells.tone))
  bindTo heading (.plain "title") (.dynamic (.cell cells.title))

def furnish (cells : Cells) (root : NodeId) : CardProgram Unit := do
  let heading ← walk root "f"
  let paragraph ← walk heading "n"
  let marker ← walk paragraph "fn"
  let button ← walk paragraph "n"
  let list ← walk button "n"
  dress cells root heading
  insert heading (.dynamic (.cell cells.title)) none
  insertAtMarker marker (.dynamic (.cell cells.count))
  let _ ← listen button "click" false (.raise cells.count)
  insert list (.dynamic (.code (.items cells.items))) none

def build (cells : Cells) : CardProgram (View Code) := do
  let root ← instantiate (← template .card)
  furnish cells root
  return .node root

def buildItem (item : Datum) : CardProgram (View Code) := do
  let root ← instantiate (← template .item)
  insert root (.ofDatum item) none
  return .node root

def raised : Datum → Datum
  | .integer kind value => .integer kind (kind.wrap (value + 1))
  | datum => datum

def host : Host Code Templates where
  view code :=
    match code with
    | .items cell => do
      match ← Program.get true cell with
      | .list items => return .list (← items.mapM buildItem)
      | _ => return .empty
    | .raise _ => return .empty
  attributeText _ := return none
  datum _ := return .unit
  act _ := return
  handle code _ :=
    match code with
    | .raise cell => Program.updateCell cell fun old => return raised old
    | .items _ => return

end LiveMarkup.Card
