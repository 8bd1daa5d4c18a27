import LiveMarkup.Proofs.Cursors
import LiveMarkup.Proofs.Showing

/-!
Templates: markup that is read comes into new nodes, the root of a template stands nowhere, and a copy shows the same
tree in nodes of its own.
-/

namespace LiveMarkup.Live
open Document Markup Reactive Program Procedure

variable {γ τ : Type} {host : Host γ τ} {level : Nat} {graph : Graph (Procedure γ) Datum} {world : World γ τ}
  {n root : NodeId}

section Reading

variable {markup : String} {tree : Tree}

theorem ensures_readFragment {forest : List Tree} (read : Markup.read markup = ⟨forest, true⟩) :
    (readFragment markup : LiveProgram γ τ NodeId).Ensures (meaning host) level graph world
      fun fragment graph' world' => graph' = graph ∧ fragment = (world.document.ofTrees forest).1 ∧
        world' = { world with document := (world.document.ofTrees forest).2 } := by
  unfold readFragment
  rw [read]
  exact changing_then (ensures_pure ⟨rfl, rfl, rfl⟩)

theorem orphan_shows {η π : Type} {doc next : Document η π} {within : NodeId → Prop} {parent : Option NodeId}
    (extended : Extended doc next) (shown : next.Shows within parent tree n)
    (new : ∀ m, within m → doc.nodes.size < m ∧ m < next.nodes.size) :
    Extended doc (next.orphan [n]) ∧
      (next.orphan [n]).Shows (fun m => doc.nodes.size < m ∧ m < (next.orphan [n]).nodes.size) none tree n := by
  have shows := shown.frame (fun _ _ => rfl) new
  rw [show next.orphan [n] = next.setParent n none from rfl]
  have size : (next.setParent n none).nodes.size = next.nodes.size := (rearranged_setParent next n none).size_eq
  have others : ∀ m, m ≠ n → (next.setParent n none).node? m = next.node? m := by
    intro m apart
    rw [setParent, node?_modifyNode, if_neg fun same => apart same.symm]
  refine ⟨⟨?_, fun m bound => ?_⟩, ?_⟩
  · rw [size]
    exact extended.size_le
  · have low : n ≠ m := fun same => Nat.lt_asymm bound (same ▸ shows.inside.1)
    rw [others m low.symm, extended.node?_eq m bound]
  · rw [size]
    refine shows.reparent none ?_ fun m _ apart => others m apart
    rw [setParent, node?_modifyNode, if_pos rfl]

/-- A template whose root shows a tree has come into a world, and nothing else has changed. -/
structure Templated (world world' : World γ τ) (tree : Tree) (root : NodeId) : Prop where
  extended : Extended world.document world'.document
  shows : world'.document.Shows (fun m => world.document.nodes.size < m ∧ m < world'.document.nodes.size) none tree root
  rest : world' = { world with document := world'.document }

theorem ensures_newTemplate (read : Markup.read markup = ⟨[tree], true⟩) :
    (newTemplate markup : LiveProgram γ τ NodeId).Ensures (meaning host) level graph world
      fun root graph' world' => graph' = graph ∧ Templated world world' tree root := by
  obtain ⟨_, next, made, extended, _, fragment, shows⟩ := ofTrees_shows world.document [tree]
  obtain ⟨n, rest, rfl, first, past⟩ := shows
  obtain rfl : rest = [] := past
  refine (ensures_readFragment read).bind ?_
  rw [made]
  rintro _ _ _ ⟨rfl, rfl, rfl⟩
  have only : next.children world.document.nodes.size = [n] := children_of_node? fragment
  refine ensures_changing ?_
  dsimp only
  rw [only]
  have alone := orphan_shows extended first fun _ inside => inside.1
  exact ⟨rfl, alone.1, alone.2, rfl⟩

theorem ensures_newSvgTemplate {attrs : Attributes}
    (read : Markup.read ("<svg>" ++ markup ++ "</svg>") = ⟨[.element "svg" true attrs [tree]], true⟩) :
    (newSvgTemplate markup : LiveProgram γ τ NodeId).Ensures (meaning host) level graph world
      fun root graph' world' => graph' = graph ∧ Templated world world' tree root := by
  obtain ⟨_, next, made, extended, _, fragment, shows⟩ :=
    ofTrees_shows world.document [.element "svg" true attrs [tree]]
  obtain ⟨outer, rest, rfl, ⟨_, _, found, below⟩, past⟩ := shows
  obtain rfl : rest = [] := past
  obtain ⟨n, rest, rfl, first, past⟩ := below
  obtain rfl : rest = [] := past
  refine (ensures_readFragment read).bind ?_
  rw [made]
  rintro _ _ _ ⟨rfl, rfl, rfl⟩
  have only : (next.firstChild? world.document.nodes.size).map next.children = some [n] := by
    have one : next.children world.document.nodes.size = [outer] := children_of_node? fragment
    have two : next.children outer = [n] := children_of_node? found
    rw [firstChild?, one, List.head?_cons, Option.map_some, two]
  refine ensures_changing ?_
  dsimp only
  rw [only]
  have alone := orphan_shows extended first fun _ inside => inside.1.1.1
  exact ⟨rfl, alone.1, alone.2, rfl⟩

end Reading

def advanced (world : World γ τ) (id : ClaimId) (claim : Claim) : World γ τ :=
  { world with claims := world.claims.modify id fun _ => claim, hydration := world.hydration.count true }

theorem ensures_instantiate_claimed {tag : String} {id : ClaimId} {frames : List Frame} {claim : Claim} {svg : Bool}
    (tagged : world.document.tag? root = some tag) (framed : world.frames = .claiming id :: frames)
    (found : world.claims[id]? = some claim) (next : claim.next = some n) (mem : claim.ending ≠ some n)
    (element : world.document.kind n = .element tag svg) (size : 0 < world.document.nodes.size) :
    (instantiate root : LiveProgram γ τ NodeId).Ensures (meaning host) level graph world
      fun taken graph' world' => taken = n ∧ graph' = graph ∧
        world' = advanced world id { claim with next := world.document.next? n } := by
  have hydrating : world.isHydrating = true := by simp [World.isHydrating, framed]
  have claimed : (claimElement tag : LiveProgram γ τ _).Ensures (meaning host) level graph world
      fun taken graph' world' => taken = some n ∧ graph' = graph ∧
        world' = advanced world id { claim with next := world.document.next? n } := by
    refine ensures_changing ?_
    simp only [framed, found, takeElement_found next mem element size]
    refine ⟨trivial, trivial, ?_⟩
    rw [advanced, framed]
    rfl
  unfold instantiate
  refine seeing_then ?_
  beta_reduce
  rw [tagged]
  refine seeing_then ?_
  rw [hydrating]
  refine claimed.bind ?_
  rintro _ _ _ ⟨rfl, rfl, rfl⟩
  exact ensures_pure ⟨rfl, rfl, rfl⟩

theorem ensures_instantiate_copy {kept : NodeId → Prop} {tree : Tree}
    (shows : world.document.Shows kept none tree root) (small : ∀ m, kept m → m < world.document.nodes.size)
    (past : ∀ id claim, world.frames.head? = some (.claiming id) → world.claims[id]? = some claim →
      claim.next = claim.ending) :
    (instantiate root : LiveProgram γ τ NodeId).Ensures (meaning host) level graph world
      fun copy graph' world' => graph' = graph ∧ Extended world.document world'.document ∧
        world'.document.Shows (fun m => world.document.nodes.size ≤ m ∧ m < world'.document.nodes.size) none tree copy ∧
        world' = { world with document := world'.document, hydration := world'.hydration } := by
  obtain ⟨copy, _, made, extended, copied⟩ := copyDeep_shows shows small
  have copies : ∀ hydration : Hydration, (changeDocument (·.copyDeep root) : LiveProgram γ τ NodeId).Ensures
      (meaning host) level graph { world with hydration } fun copy graph' world' => graph' = graph ∧
        Extended world.document world'.document ∧
        world'.document.Shows (fun m => world.document.nodes.size ≤ m ∧ m < world'.document.nodes.size) none tree copy ∧
        world' = { world with document := world'.document, hydration := world'.hydration } := by
    intro hydration
    refine ensures_changing ?_
    dsimp only
    rw [made]
    exact ⟨rfl, extended, copied, rfl⟩
  have claimed : ∀ tag, (claimElement tag : LiveProgram γ τ _).Ensures (meaning host) level graph world
      fun taken graph' world' => taken = none ∧ graph' = graph ∧ ∃ hydration, world' = { world with hydration } := by
    intro tag
    refine ensures_changing ?_
    split
    · rename_i id frames framed
      cases found : world.claims[id]? with
      | none => exact ⟨rfl, rfl, world.hydration, rfl⟩
      | some claim =>
        have ended := past id claim (by rw [framed]; rfl) found
        have same : world.claims.modify id (fun _ => claim) = world.claims := modify_eq_self found rfl
        simp only [takeElement_none ended, same]
        exact ⟨trivial, trivial, _, rfl⟩
    · exact ⟨rfl, rfl, world.hydration, rfl⟩
  unfold instantiate
  refine seeing_then ?_
  beta_reduce
  cases world.document.tag? root with
  | none => exact copies world.hydration
  | some tag =>
    refine seeing_then ?_
    cases world.isHydrating with
    | false => exact copies world.hydration
    | true =>
      refine (claimed tag).bind ?_
      rintro _ _ _ ⟨rfl, rfl, hydration, rfl⟩
      exact copies hydration

end LiveMarkup.Live
