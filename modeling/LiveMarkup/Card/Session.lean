import LiveMarkup.Card.Client

/-!
A session with a card: the card is rendered on a server, its markup is taken over by a client, and then things
happen to the card.
-/

namespace LiveMarkup.Card
open Document Live Reactive

inductive Action where
  | kind (value : String)
  | title (value : String)
  | active (value : Bool)
  | tone (value : Option String)
  | count (value : Int)
  | items (value : List String)
  | click
  | dispose
  deriving Repr

structure Scene where
  markup : String
  count : Int
  changes : Changes
  deriving Repr

structure SessionReport where
  server : String
  fresh : String
  hydration : Hydration
  changes : Changes
  hydrated : String
  scenes : List Scene
  deriving Repr

def firstButton? (doc : Document Code Property) (container : NodeId) : Option NodeId :=
  (doc.allFollowing container container).find? fun n => doc.tag? n == some "button"

def act (cells : Cells) (container : NodeId) (scope : OwnerId) : Action → CardProgram Unit
  | .kind value => Program.perform (.write cells.kind (.string value))
  | .title value => Program.perform (.write cells.title (.string value))
  | .active value => Program.perform (.write cells.active (.bool value))
  | .tone value => Program.perform (.write cells.tone (toneDatum value))
  | .count value => Program.perform (.write cells.count (countDatum value))
  | .items value => Program.perform (.write cells.items (itemsDatum value))
  | .click => do
    match ← seeDocument fun doc => firstButton? doc container with
    | none => return
    | some button =>
      let event ← newEvent "click" true
      let _ ← dispatch button event
  | .dispose => Program.perform (.dispose scope)

def measured {ι : Type} (program : CardProgram ι) : CardProgram (ι × Changes) := do
  let before ← seeDocument Document.changes
  let result ← program
  let after ← seeDocument Document.changes
  return (result, after.since before)

def currentCount (cells : Cells) : CardProgram Int := do
  match ← Program.get false cells.count with
  | .integer _ value => return value
  | _ => return 0

def scene (cells : Cells) (container : NodeId) (scope : OwnerId) (action : Action) : CardProgram Scene := do
  let ((), changes) ← measured (act cells container scope action)
  return { markup := ← seeDocument (·.inner container), count := ← currentCount cells, changes }

def freshContainer (card : Card) : CardProgram NodeId := do
  let container ← changeDocument (·.createElement "main")
  let cells ← newCells card
  let _ ← render (build cells) container
  return container

def containerOf (markup : String) : CardProgram NodeId := do
  let container ← changeDocument (·.createElement "main")
  let fragment ← readFragment markup
  alterDocument (·.append container fragment)
  return container

structure Takeover where
  container : NodeId
  cells : Cells
  scope : OwnerId
  hydration : Hydration
  changes : Changes

def takeOver (markup : String) (card : Card) : CardProgram Takeover := do
  let container ← containerOf markup
  let cells ← newCells card
  let ((scope, hydration), changes) ← measured (hydrate (build cells) container)
  return { container, cells, scope, hydration, changes }

/-- Renders the server's card, the client's card by itself, and the client's card over the given markup, which is
the server's unless something else is given. -/
def session (server client : Card) (given : Option String) (actions : List Action) : CardProgram SessionReport := do
  let fresh ← freshContainer client
  let freshMarkup ← seeDocument (·.inner fresh)
  let taken ← takeOver (given.getD server.markup) client
  let hydrated ← seeDocument (·.inner taken.container)
  let scenes ← actions.mapM (scene taken.cells taken.container taken.scope)
  return { server := server.markup, fresh := freshMarkup, hydration := taken.hydration, changes := taken.changes,
           hydrated, scenes }

def play (server client : Card) (given : Option String) (actions : List Action) : Except Fault SessionReport :=
  match Live.run host (session server client given actions) { outside := { host := {} } } with
  | .ok report _ => .ok report
  | .error fault _ => .error fault

end LiveMarkup.Card
