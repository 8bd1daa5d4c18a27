import LiveMarkup.Live.Claim
import LiveMarkup.Live.Reconcile
import LiveMarkup.Reactive.Graph

/-!
Regions: runs of siblings under one parent whose content changes. A region begins behind a marker or at the
place of its first node, and ends before a marker, before a fixed node or at the end of the parent.
-/

namespace LiveMarkup.Live
open Document
open Reactive (OwnerId)

inductive Item where
  | node (node : NodeId)
  | text (data : String)
  deriving Repr, BEq, DecidableEq

/-- Adds an item at the end. Adjacent texts become one and an empty text is none, as in markup that is read. -/
def pushItem (items : List Item) : Item → List Item
  | .node n => items ++ [.node n]
  | .text data =>
    if data = "" then items
    else match items.getLast? with
      | some (.text last) => items.dropLast ++ [.text (last ++ data)]
      | _ => items ++ [.text data]

def mergeItems (items : List Item) : List Item := items.foldl pushItem []

structure Region where
  parent : NodeId
  start : Option NodeId := none
  ending : Option NodeId := none
  before : Option NodeId := none
  current : List NodeId := []
  /-- The owner without which the region is no longer changed. -/
  owner : Option OwnerId := none
  deriving Repr

namespace Region

variable {η π : Type}

/-- The node before which new content goes; at the end without one. -/
def mark (region : Region) (doc : Document η π) : Option NodeId :=
  match region.ending, region.before with
  | some ending, _ => some ending
  | none, some before => some before
  | none, none => region.start.bind fun start => doc.next? (region.current.getLast?.getD start)

def ensureEnding (region : Region) (doc : Document η π) : Region × Document η π :=
  if region.start.isNone || region.ending.isSome then (region, doc)
  else
    let (ending, doc) := doc.createComment regionEnd
    let doc := doc.insertBefore region.parent ending (region.mark doc)
    ({ region with ending := some ending }, doc)

def replace (region : Region) (nodes : List NodeId) (doc : Document η π) : Region × Document η π :=
  let mark := region.mark doc
  let doc := nodes.foldl (fun doc n => doc.insertBefore region.parent n mark) doc
  let doc := doc.removeAll (region.current.filter fun n => !nodes.contains n)
  ({ region with current := nodes }, doc)

/-- The nodes for items. A text goes into the text node at the same place if there is one. -/
def nodesFor (current : List NodeId) : List Item → Document η π → List NodeId × Document η π
  | [], doc => ([], doc)
  | .node n :: items, doc =>
    let (nodes, doc) := nodesFor (current.drop 1) items doc
    (n :: nodes, doc)
  | .text data :: items, doc =>
    let (n, doc) := match current.head? with
      | some old => if doc.isText old then (old, doc.setData old data) else doc.createText data
      | none => doc.createText data
    let (nodes, doc) := nodesFor (current.drop 1) items doc
    (n :: nodes, doc)

def update (region : Region) (items : List Item) (doc : Document η π) : Region × Document η π :=
  match items with
  | [] =>
    let (region, doc) := region.ensureEnding doc
    ({ region with current := [] }, doc.removeAll region.current)
  | [.text data] =>
    let fresh :=
      let (n, doc) := doc.createText data
      region.replace [n] doc
    match region.current with
    | [n] => if doc.isText n then (region, doc.setData n data) else fresh
    | _ => fresh
  | [.node n] => if region.current = [n] then (region, doc) else region.replace [n] doc
  | items =>
    let (region, doc) := region.ensureEnding doc
    let (nodes, doc) := nodesFor region.current items doc
    if region.current.length ≤ 1 then region.replace nodes doc
    else ({ region with current := nodes }, reconcile region.parent region.current nodes (region.mark doc) doc)

/-- Whether an item is what a node shows already, up to the characters of a text. -/
def Item.fits (doc : Document η π) : Item × NodeId → Bool
  | (.node n, m) => n == m
  | (.text _, m) => doc.isText m

def fillTexts (pairs : List (Item × NodeId)) (doc : Document η π) : Document η π :=
  pairs.foldl (fun doc (item, n) =>
    match item with
    | .text data => doc.setData n data
    | .node _ => doc) doc

/-- What became of a first showing over nodes that were there already. -/
structure Adoption (η π : Type) where
  region : Region
  document : Document η π
  matched : Bool

/-- Shows items over the nodes of a claim: they are taken as they are if they fit, and replaced otherwise. Of a
region that is no longer `live` the content stays away. -/
def adopt (region : Region) (items : List Item) (claim : Claim) (live : Bool) (doc : Document η π) : Adoption η π :=
  let region := if claim.ending.isSome then { region with ending := claim.ending } else region
  let given := claim.nodes doc
  let pairs := items.zip given
  if items.length = given.length ∧ pairs.all (Item.fits doc) then
    ⟨{ region with current := given }, fillTexts pairs doc, true⟩
  else
    let doc := doc.removeAll (given.filter fun n => !items.contains (.node n))
    let region := { region with current := [] }
    if live then
      let (region, doc) := region.update items doc
      ⟨region, doc, false⟩
    else ⟨region, doc, false⟩

end Region
end LiveMarkup.Live
