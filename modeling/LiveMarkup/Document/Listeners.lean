import LiveMarkup.Document.Basic

/-!
The listeners of nodes, in the order in which they were added.
-/

namespace LiveMarkup.Document

variable {η π : Type}

def listeners (doc : Document η π) (n : NodeId) : List (Listener η) := ((doc.node? n).map Node.listeners).getD []

def addListener (doc : Document η π) (n : NodeId) (event : String) (capture : Bool) (handler : η) :
    ListenerId × Document η π :=
  let id := doc.nextListener
  let doc := doc.modifyNode n fun node =>
    { node with listeners := node.listeners ++ [⟨id, event, capture, handler⟩] }
  (id, { doc with nextListener := id + 1 })

def removeListener (doc : Document η π) (n : NodeId) (id : ListenerId) : Bool × Document η π :=
  ((doc.listeners n).any (·.id == id),
    doc.modifyNode n fun node => { node with listeners := node.listeners.filter (·.id != id) })

def handlers (doc : Document η π) (n : NodeId) (event : String) (capture : Bool) : List η :=
  ((doc.listeners n).filter fun l => l.event == event && l.capture == capture).map Listener.handler

end LiveMarkup.Document
