import LiveMarkup.Document.Listeners
import LiveMarkup.Proofs.Attributes
import LiveMarkup.Proofs.Editing
import LiveMarkup.Proofs.Leniency

/-!
What can be done to the nodes of a document, and what holds of their attributes whatever was done: no node has two
attributes of one name.
-/

namespace LiveMarkup.Document
open Markup (Tree OrdinaryNames)

variable {η π : Type} {doc next : Document η π}

/-- No node has two attributes of one name. -/
def DistinctNames (doc : Document η π) : Prop := ∀ n, ((doc.attributes n).map Prod.fst).Nodup

/-- What is written to the attributes of a node: one is set, or one is removed, or nothing is done. -/
inductive Writes (doc : Document η π) (n : NodeId) : Document η π → Prop
  | same : Writes doc n doc
  | put (name value : String) : Writes doc n (doc.setAttribute n name value)
  | drop (name : String) : Writes doc n (doc.removeAttribute n name)

theorem writes_toggleClass (n : NodeId) (name : String) (present : Bool) :
    doc.Writes n (doc.toggleClass n name present) := by
  simp only [toggleClass]
  split
  · exact .same
  · split
    · exact .drop _
    · exact .put _ _

theorem writes_setStyle (n : NodeId) (name : String) (value : Option String) :
    doc.Writes n (doc.setStyle n name value) := by
  have written : ∀ decls : Markup.Style.Declarations,
      doc.Writes n (if decls.isEmpty then doc.removeAttribute n "style"
        else doc.setAttribute n "style" (Markup.Style.render decls)) := by
    intro decls
    split
    · exact .drop _
    · exact .put _ _
  cases value with
  | some => exact written _
  | none =>
    simp only [setStyle]
    split
    · exact written _
    · exact .same

section Names

variable (distinct : doc.DistinctNames) {n : NodeId}
include distinct

theorem DistinctNames.of_node? {node : Node η π} (found : doc.node? n = some node) :
    (node.attributes.map Prod.fst).Nodup := by
  simpa [attributes, found] using distinct n

theorem DistinctNames.rearranged (rearranged : Rearranged doc next) : next.DistinctNames := by
  intro n
  rw [attributes, rearranged.node?_eq, Option.map_map]
  exact distinct n

theorem DistinctNames.create (kind : Kind) (data : String) : (doc.create kind data).2.DistinctNames := by
  intro n
  rw [attributes, node?_create]
  split
  · simp
  · exact distinct n

theorem DistinctNames.modifyNode (n : NodeId) {f : Node η π → Node η π}
    (keeps : ∀ node, (node.attributes.map Prod.fst).Nodup → ((f node).attributes.map Prod.fst).Nodup) :
    (doc.modifyNode n f).DistinctNames := by
  intro m
  rw [attributes, node?_modifyNode]
  cases found : doc.node? m with
  | none => simp
  | some node =>
    have once := distinct.of_node? found
    split
    · exact keeps node once
    · exact once

theorem DistinctNames.writes (writes : doc.Writes n next) : next.DistinctNames := by
  cases writes with
  | same => exact distinct
  | put name value => exact distinct.modifyNode n fun _ once => nodup_keys_putEntry once name value
  | drop name => exact distinct.modifyNode n fun _ once => nodup_keys_filter once name

end Names

section Making

mutual

theorem DistinctNames.addTree {doc : Document η π} (distinct : doc.DistinctNames) (parent : NodeId) {tree : Tree}
    {svg : Bool} (expressible : tree.Expressible OrdinaryNames svg) : (addTree parent tree doc).DistinctNames := by
  match tree with
  | .text data => exact (distinct.create .text data).rearranged (rearranged_place ..)
  | .comment data => exact (distinct.create .comment data).rearranged (rearranged_place ..)
  | .element tag svg attributes _ =>
    have made := ((distinct.create (.element tag svg) "").modifyNode doc.nodes.size
      (f := fun node => { node with attributes }) fun _ _ => expressible.2.2.1.once).rearranged
      (rearranged_place _ parent doc.nodes.size none)
    exact made.addTrees doc.nodes.size expressible.below

theorem DistinctNames.addTrees {doc : Document η π} (distinct : doc.DistinctNames) (parent : NodeId) {trees : List Tree}
    {svg : Bool} (expressible : Tree.ExpressibleAll OrdinaryNames svg trees) : (addTrees parent trees doc).DistinctNames := by
  match trees with
  | [] => exact distinct
  | tree :: trees => exact (distinct.addTree parent expressible.1).addTrees parent expressible.2

end

variable (distinct : doc.DistinctNames)
include distinct

theorem DistinctNames.parse (markup : String) : (doc.ofTrees (Markup.read markup).forest).2.DistinctNames :=
  (distinct.create .fragment "").addTrees doc.nodes.size (Markup.expressible_read markup)

theorem DistinctNames.copyNode {copyAll : List NodeId → Document η π → List NodeId × Document η π}
    (keeps : ∀ {doc : Document η π} nodes, doc.DistinctNames → (copyAll nodes doc).2.DistinctNames)
    (copies : List NodeId) (n : NodeId) : (copyNode copyAll copies doc n).2.DistinctNames := by
  let begun := (doc.create (doc.kind n) (doc.data n)).2
  have made : begun.DistinctNames := distinct.create (doc.kind n) (doc.data n)
  have filled := (keeps (begun.children n) made).modifyNode doc.nodes.size (f := fun node =>
    { node with attributes := begun.attributes n, children := (copyAll (begun.children n) begun).1 }) fun _ _ => made n
  exact filled.rearranged (rearranged_setParents _ _ _)

theorem DistinctNames.copyUpTo (fuel : Nat) (nodes : List NodeId) : (copyUpTo fuel nodes doc).2.DistinctNames := by
  induction fuel generalizing doc nodes with
  | zero => exact distinct
  | succ fuel ih =>
    suffices every : ∀ copies, (nodes.foldl (fun made n => Document.copyNode (Document.copyUpTo fuel) made.1 made.2 n)
      (copies, doc)).2.DistinctNames from every []
    intro copies
    induction nodes generalizing doc copies with
    | nil => exact distinct
    | cons n nodes rest => exact rest (distinct.copyNode (fun nodes distinct => ih distinct nodes) copies n) _

theorem DistinctNames.copyDeep (n : NodeId) : (doc.copyDeep n).2.DistinctNames :=
  distinct.copyUpTo (doc.nodes.size + 1) [n]

end Making

/-- What can be done to the nodes of a document. Nodes are let go when the node above them is dropped. -/
inductive Operation (η π : Type) where
  | edit (change : Edit)
  | parse (markup : String)
  | setData (n : NodeId) (data : String)
  | setAttribute (n : NodeId) (name value : String)
  | removeAttribute (n : NodeId) (name : String)
  | toggleClass (n : NodeId) (name : String) (present : Bool)
  | setStyle (n : NodeId) (name : String) (value : Option String)
  | setProperty (n : NodeId) (name : String) (value : π)
  | addListener (n : NodeId) (event : String) (capture : Bool) (handler : η)
  | removeListener (n : NodeId) (id : ListenerId)
  | letGo (nodes : List NodeId)

namespace Operation

def apply (doc : Document η π) : Operation η π → Document η π
  | .edit change => change.apply doc
  | parse markup => (doc.ofTrees (Markup.read markup).forest).2
  | setData n data => doc.setData n data
  | setAttribute n name value => doc.setAttribute n name value
  | removeAttribute n name => doc.removeAttribute n name
  | toggleClass n name present => doc.toggleClass n name present
  | setStyle n name value => doc.setStyle n name value
  | setProperty n name value => doc.setProperty n name value
  | addListener n event capture handler => (doc.addListener n event capture handler).2
  | removeListener n id => (doc.removeListener n id).2
  | letGo nodes => doc.orphan nodes

/-- An edit that is allowed, or an operation on what is stored of a node; no node is let go. -/
def Allowed (doc : Document η π) : Operation η π → Prop
  | .edit change => change.Allowed doc
  | parse markup => (Markup.read markup).complete
  | letGo _ => False
  | _ => True

def AllAllowed (doc : Document η π) : List (Operation η π) → Prop
  | [] => True
  | operation :: operations => operation.Allowed doc ∧ AllAllowed (operation.apply doc) operations

end Operation

theorem DistinctNames.edited (distinct : doc.DistinctNames) (edit : Edit) : (edit.apply doc).DistinctNames := by
  cases edit with
  | create kind data => exact distinct.create kind data
  | append | insertBefore => exact distinct.rearranged (rearranged_insertBefore ..)
  | remove n => exact distinct.rearranged (rearranged_remove doc n)
  | removeChild _ n =>
    simp only [Edit.apply, removeChild]
    split
    · exact distinct.rearranged (rearranged_remove doc n)
    · exact distinct
  | replaceChildren parent nodes =>
    exact distinct.rearranged ((rearranged_removeAll doc _).trans (rearranged_insertAll _ parent nodes none))
  | setInner _ markup =>
    exact (distinct.parse markup).rearranged ((rearranged_removeAll _ _).trans (rearranged_insertBefore ..))
  | copy n deep =>
    cases deep with
    | false =>
      have made := distinct.create (doc.kind n) (doc.data n)
      exact made.modifyNode _ fun _ _ => made n
    | true => exact distinct.copyDeep n

theorem DistinctNames.operated (distinct : doc.DistinctNames) (operation : Operation η π) :
    (operation.apply doc).DistinctNames := by
  cases operation with
  | edit change => exact distinct.edited change
  | parse markup => exact distinct.parse markup
  | setAttribute _ name value => exact distinct.writes (.put name value)
  | removeAttribute _ name => exact distinct.writes (.drop name)
  | toggleClass n name present => exact distinct.writes (writes_toggleClass n name present)
  | setStyle n name value => exact distinct.writes (writes_setStyle n name value)
  | letGo nodes => exact distinct.rearranged (rearranged_setParents doc nodes none)
  | setData n _ | setProperty n _ _ | addListener n _ _ _ | removeListener n _ => exact distinct.modifyNode n fun _ once => once

theorem DistinctNames.operated_all (distinct : doc.DistinctNames) (operations : List (Operation η π)) :
    (operations.foldl Operation.apply doc).DistinctNames := by
  induction operations generalizing doc with
  | nil => exact distinct
  | cons operation _ ih => exact ih (distinct.operated operation)

theorem DistinctNames.empty : ({} : Document η π).DistinctNames := fun n => by simp [attributes, node?]

theorem WellFormed.operated (wellFormed : doc.WellFormed) {operation : Operation η π} (allowed : operation.Allowed doc) :
    (operation.apply doc).WellFormed := by
  have writes : ∀ {n next}, doc.Writes n next → next.WellFormed := by
    rintro n _ (_ | _ | _)
    · exact wellFormed
    all_goals exact wellFormed.modifyNode n fun _ => ⟨rfl, rfl, rfl⟩
  cases operation with
  | edit => exact wellFormed.edited allowed
  | parse => exact wellFormed.ofTrees _
  | setAttribute _ name value => exact writes (.put name value)
  | removeAttribute _ name => exact writes (.drop name)
  | toggleClass n name present => exact writes (writes_toggleClass n name present)
  | setStyle n name value => exact writes (writes_setStyle n name value)
  | setData n _ | setProperty n _ _ | removeListener n _ => exact wellFormed.modifyNode n fun _ => ⟨rfl, rfl, rfl⟩
  | addListener n event capture handler =>
    have kept := wellFormed.modifyNode n (f := fun node =>
      { node with listeners := node.listeners ++ [⟨doc.nextListener, event, capture, handler⟩] }) fun _ => ⟨rfl, rfl, rfl⟩
    exact kept.congr (fun _ => rfl) (fun _ => rfl) fun _ => rfl
  | letGo => exact allowed.elim

theorem WellFormed.operated_all (wellFormed : doc.WellFormed) {operations : List (Operation η π)}
    (allowed : Operation.AllAllowed doc operations) : (operations.foldl Operation.apply doc).WellFormed := by
  induction operations generalizing doc with
  | nil => exact wellFormed
  | cons _ _ ih => exact ih (wellFormed.operated allowed.1) allowed.2

end LiveMarkup.Document
