import LiveMarkup.Document.Arrange

/-!
Turning one run of siblings into another with few moves. Both runs are shortened from either end as long as their
ends agree or are swapped; after that the places of the new nodes decide what is moved and what stays.
-/

namespace LiveMarkup.Live
open Document

structure Runs where
  old : List NodeId
  new : List NodeId
  /-- How many of the old nodes in front are done with. -/
  oldStart : Nat := 0
  /-- How many of the new nodes in front are done with. -/
  newStart : Nat := 0
  /-- The last of these. -/
  previous : Option NodeId := none
  /-- The first new node behind what is left. -/
  beyond : Option NodeId := none
  /-- The places of the new nodes, once they were needed. -/
  places : Option (List (NodeId × Nat)) := none
  deriving Repr

namespace Runs

/-- The places of the new nodes that are left; of a repeated node the last. -/
def placesOfNew (runs : Runs) : List (NodeId × Nat) := (runs.new.zipIdx runs.newStart).reverse

def placeOf? (places : List (NodeId × Nat)) (n : NodeId) : Option Nat := (places.find? (·.1 == n)).map Prod.snd

/-- How many of the nodes have the places `place`, `place + 1` and so on, `room` at most. -/
def followingRun (places : List (NodeId × Nat)) : (room place : Nat) → List NodeId → Nat
  | 0, _, _ => 0
  | _, _, [] => 0
  | room + 1, place, n :: rest =>
    if placeOf? places n = some place then 1 + followingRun places room (place + 1) rest else 0

variable {η π : Type}

/-- Takes away the old nodes that are left and have no place among the new ones. -/
def removeOld (runs : Runs) (doc : Document η π) : Document η π :=
  match runs.places with
  | none => doc.removeAll runs.old
  | some places => doc.removeAll (runs.old.filter fun n => (placeOf? places n).isNone)

/-- The mark of the new nodes that are left when no old node is. -/
def insertionMark (runs : Runs) (after : Option NodeId) (doc : Document η π) : Option NodeId :=
  match runs.beyond with
  | none => after
  | some beyond =>
    match runs.previous with
    | none => some beyond
    | some previous => doc.next? previous

def insertNew (runs : Runs) (parent : NodeId) (after : Option NodeId) (doc : Document η π) : Document η π :=
  let mark := runs.insertionMark after doc
  runs.new.foldl (fun doc n => doc.insertBefore parent n mark) doc

def reconcile (parent : NodeId) (after : Option NodeId) (runs : Runs) (doc : Document η π) : Document η π :=
  match oldEq : runs.old, newEq : runs.new with
  | [], _ => runs.insertNew parent after doc
  | _, [] => runs.removeOld doc
  | a :: as, b :: bs =>
    let lastOld := (a :: as).getLast (by simp)
    let lastNew := (b :: bs).getLast (by simp)
    if a = b then
      reconcile parent after
        { runs with
          old := as, new := bs, oldStart := runs.oldStart + 1, newStart := runs.newStart + 1, previous := some b } doc
    else if lastOld = lastNew then
      reconcile parent after
        { runs with old := (a :: as).dropLast, new := (b :: bs).dropLast, beyond := some lastNew } doc
    else if a = lastNew && b = lastOld then
      let tail := doc.next? lastOld
      let head := doc.next? a
      let doc := (doc.insertBefore parent b head).insertBefore parent lastNew tail
      reconcile parent after
        { runs with
          old := as.dropLast, new := bs.dropLast, oldStart := runs.oldStart + 1, newStart := runs.newStart + 1
          previous := some b, beyond := some lastNew } doc
    else
      let places := runs.places.getD runs.placesOfNew
      let newEnd := runs.newStart + runs.new.length
      let runs := { runs with places := some places }
      match placeOf? places a with
      | none => reconcile parent after { runs with old := as, oldStart := runs.oldStart + 1 } (doc.remove a)
      | some place =>
        if runs.newStart < place && place < newEnd then
          let ahead := place - runs.newStart
          let stays := 1 + followingRun places (newEnd - (runs.oldStart + 1)) (place + 1) as
          if ahead < stays then
            let moved := (b :: bs).take ahead
            let doc := moved.foldl (fun doc n => doc.insertBefore parent n (some a)) doc
            reconcile parent after
              { runs with old := a :: as, new := bs.drop (ahead - 1), newStart := place, previous := moved.getLast? } doc
          else
            let doc := (doc.insertBefore parent b (some a)).remove a
            reconcile parent after
              { runs with
                old := as, new := bs, oldStart := runs.oldStart + 1, newStart := runs.newStart + 1
                previous := some b } doc
        else reconcile parent after { runs with old := as, oldStart := runs.oldStart + 1 } doc
termination_by runs.old.length + runs.new.length
decreasing_by all_goals simp_all +arith <;> omega

end Runs

/-- Turns the children `old` of a parent into `new`; `after` is the child that follows them. -/
def reconcile {η π : Type} (parent : NodeId) (old new : List NodeId) (after : Option NodeId) (doc : Document η π) :
    Document η π :=
  Runs.reconcile parent after { old, new } doc

end LiveMarkup.Live
