import LiveMarkup.Proofs.Repetition

/-!
Texts that are taken for two items. A text item is shown in the text node that the region has at its place. That node may be
one that a later or an earlier item gives, since a view may give text nodes; then it is there twice, and its characters are
those of the other item. In all other cases the nodes for items are told apart and each shows its item.
-/

namespace LiveMarkup.Live
open Document Reactive List Region

variable {η π : Type} {doc next : Document η π} {items : List Item} {nodes current : List NodeId} {n : NodeId}

section Filling

variable (filled : Filled doc items nodes)
include filled

theorem Filled.mem_iff : n ∈ nodes ↔ n ∈ itemNodes items ∨ n ∈ filledNodes items nodes := by
  induction filled with
  | nil => simp [itemNodes, filledNodes]
  | node _ ih => simp [ih, or_assoc]
  | text _ _ _ ih =>
    simp only [mem_cons, ih, itemNodes_text, filledNodes_text]
    tauto

theorem Filled.nodup_iff :
    nodes.Nodup ↔ (itemNodes items).Nodup ∧ (filledNodes items nodes).Nodup ∧ ∀ n ∈ filledNodes items nodes, n ∉
      itemNodes items := by
  induction filled with
  | nil => simp [itemNodes, filledNodes]
  | node filled ih =>
    simp only [nodup_cons, filled.mem_iff, ih, itemNodes_node, filledNodes_node, mem_cons, not_or]
    constructor
    · rintro ⟨⟨given, unfilled⟩, once, onceFilled, apart⟩
      exact ⟨⟨given, once⟩, onceFilled, fun n mem => ⟨fun same => unfilled (same ▸ mem), apart n mem⟩⟩
    · rintro ⟨⟨given, once⟩, onceFilled, apart⟩
      exact ⟨⟨given, fun mem => (apart _ mem).1 rfl⟩, once, onceFilled, fun n mem => (apart n mem).2⟩
  | text _ _ filled ih =>
    simp only [nodup_cons, filled.mem_iff, ih, itemNodes_text, filledNodes_text, forall_mem_cons, not_or]
    tauto

theorem Filled.shows (once : (filledNodes items nodes).Nodup) : Forall₂ (ShowsItem doc) items nodes := by
  induction filled with
  | nil => exact .nil
  | node _ ih => exact .cons rfl (ih once)
  | text text last _ ih =>
    obtain ⟨fresh, once⟩ := nodup_cons.mp once
    exact .cons ⟨by simpa [isText] using text, last fresh⟩ (ih once)

theorem Filled.kind_eq (mem : n ∈ filledNodes items nodes) : doc.kind n = .text := by
  induction filled with
  | nil => cases mem
  | node _ ih => exact ih mem
  | text text _ _ ih =>
    rcases mem_cons.mp mem with rfl | mem
    · simpa [isText] using text
    · exact ih mem

end Filling

/-- The texts of a region that stand at the places of text items. -/
def reusedTexts (doc : Document η π) (current : List NodeId) (items : List Item) : List NodeId :=
  (items.zip current).filterMap fun (item, n) =>
    match item with
    | .text _ => if doc.isText n then some n else none
    | .node _ => none

@[simp]
theorem reusedTexts_node (doc : Document η π) (current : List NodeId) (own : NodeId) (items : List Item) :
    reusedTexts doc current (.node own :: items) = reusedTexts doc (current.drop 1) items := by
  cases current with
  | nil => simp [reusedTexts]
  | cons => rfl

@[simp]
theorem reusedTexts_text (doc : Document η π) (current : List NodeId) (data : String) (items : List Item) :
    reusedTexts doc current (.text data :: items) =
      (current.head?.filter doc.isText).toList ++ reusedTexts doc (current.drop 1) items := by
  cases current with
  | nil => simp [reusedTexts]
  | cons old => by_cases text : doc.isText old = true <;> simp [reusedTexts, text, Option.filter]

theorem reusedTexts_congr (kinds : ∀ m ∈ current, next.kind m = doc.kind m) (items : List Item) :
    reusedTexts next current items = reusedTexts doc current items := by
  refine filterMap_congr fun pair mem => ?_
  obtain ⟨item, m⟩ := pair
  cases item with
  | node => rfl
  | text =>
    have same : next.isText m = doc.isText m := by rw [isText, isText, kinds m (of_mem_zip mem).2]
    simp only [same]

theorem reusedTexts_subset (doc : Document η π) (current : List NodeId) (items : List Item) :
    reusedTexts doc current items ⊆ current := by
  intro n mem
  obtain ⟨⟨item, _⟩, pair, taken⟩ := mem_filterMap.mp mem
  obtain ⟨_, listed⟩ := of_mem_zip pair
  cases item with
  | node => cases taken
  | text =>
    dsimp only at taken
    split at taken
    · exact Option.some.inj taken ▸ listed
    · cases taken

/-- Into the texts of the region that stand at the places of text items, and into new ones, characters are put once each. -/
structure Reuse (doc : Document η π) (current : List NodeId) (items : List Item) (filled : List NodeId) : Prop where
  reused : reusedTexts doc current items ⊆ filled
  origin : ∀ n ∈ filled, n ∈ reusedTexts doc current items ∨ doc.nodes.size ≤ n
  once : filled.Nodup

theorem reuse_nodesFor (distinct : current.Nodup) (present : ∀ n ∈ current, n < doc.nodes.size) (items : List Item) :
    Reuse doc current items (filledNodes items (nodesFor current items doc).1) := by
  induction items generalizing doc current with
  | nil => exact ⟨Subset.refl _, by simp [filledNodes], .nil⟩
  | cons item items ih =>
    have distinct' : (current.drop 1).Nodup := distinct.sublist (drop_sublist 1 current)
    have present' : ∀ n ∈ current.drop 1, n < doc.nodes.size := fun n mem => present n (mem_of_mem_drop mem)
    cases item with
    | node =>
      have later := ih distinct' present'
      exact ⟨by simpa [nodesFor] using later.reused, by simpa [nodesFor] using later.origin, later.once⟩
    | text data =>
      have finish : ∀ (middle : Document η π) (n : NodeId), Patched doc middle [n] → n < middle.nodes.size →
          n ∉ current.drop 1 → (current.head?.filter doc.isText).toList ⊆ [n] →
          (n ∈ (current.head?.filter doc.isText).toList ∨ doc.nodes.size ≤ n) →
          Reuse doc current (.text data :: items) (n :: filledNodes items (nodesFor (current.drop 1) items middle).1) := by
        intro middle n patched small apart first origin
        obtain ⟨reused, origins, once⟩ := ih distinct' fun m mem => (present' m mem).trans_le patched.size_le
        rw [reusedTexts_congr fun m mem => patched.kind_eq m (present' m mem)] at reused origins
        refine ⟨?_, ?_, nodup_cons.mpr ⟨fun mem => ?_, once⟩⟩
        · rw [reusedTexts_text]
          exact append_subset.mpr ⟨Subset.trans first (by simp), fun m mem => mem_cons_of_mem n (reused mem)⟩
        · intro m mem
          rw [reusedTexts_text, mem_append]
          rcases mem_cons.mp mem with rfl | mem
          · exact origin.imp_left .inl
          · exact (origins m mem).imp .inr (Nat.le_trans patched.size_le)
        · rcases origins n mem with old | new
          · exact apart (reusedTexts_subset _ _ _ old)
          · exact absurd new small.not_ge
      have made : current.head?.filter doc.isText = none →
          Reuse doc current (.text data :: items)
            (doc.nodes.size :: filledNodes items (nodesFor (current.drop 1) items (doc.createText data).2).1) := by
        intro none
        refine finish _ _ ((patched_create doc .text data).widen (by simp)) (by simp [createText, create])
          (fun mem => lt_irrefl _ (present' _ mem)) ?_ (.inr (le_rfl))
        rw [none]
        exact nil_subset _
      cases current with
      | nil => exact made rfl
      | cons old =>
        by_cases text : doc.isText old = true
        · have kept := finish (doc.setData old data) old (patched_setData doc old data)
            ((present old (by simp)).trans_le (patched_setData doc old data).size_le)
            (nodup_cons.mp distinct).1 (by simp [Option.filter, text]) (.inl (by simp [Option.filter, text]))
          simpa only [nodesFor, head?_cons, text, if_true, filledNodes_text] using kept
        · simp only [nodesFor, head?_cons, text, filledNodes_text]
          exact made (by simp [Option.filter, text])

theorem patched_nodesFor (current : List NodeId) (items : List Item) (doc : Document η π) :
    Patched doc (nodesFor current items doc).2 current := by
  induction items generalizing current doc with
  | nil => exact .refl doc current
  | cons item items ih =>
    have later := fun middle : Document η π => ih (current.drop 1) middle
    cases item with
    | node => exact (later doc).widen (drop_subset 1 current)
    | text data =>
      have made : Patched doc (nodesFor (current.drop 1) items (doc.createText data).2).2 current :=
        ((patched_create doc .text data).widen (by simp)).trans (later _) (drop_subset 1 current)
      cases current with
      | nil => exact made
      | cons old current =>
        by_cases text : doc.isText old = true
        · have kept := ((patched_setData doc old data).widen (by simp)).trans (later (doc.setData old data))
            (drop_subset 1 (old :: current))
          simpa only [nodesFor, head?_cons, text, if_true] using kept
        · simp only [nodesFor, head?_cons, text]
          exact made

theorem readied_of_untaken (distinct : current.Nodup) (present : ∀ n ∈ current, n < doc.nodes.size)
    (once : (itemNodes items).Nodup) (solid : ∀ n ∈ itemNodes items, doc.kind n ≠ .fragment)
    (untaken : ∀ n ∈ reusedTexts doc current items, n ∉ itemNodes items) :
    Readied doc (nodesFor current items doc).2 current items (nodesFor current items doc).1 := by
  have filled := (filled_nodesFor current items doc).1
  have reuse := reuse_nodesFor distinct present items
  refine ⟨patched_nodesFor current items doc, filled.shows reuse.once, filled.nodup_iff.mpr ⟨once, reuse.once, fun n mem => ?_⟩,
    fun n mem => ?_⟩
  · rcases reuse.origin n mem with taken | new
    · exact untaken n taken
    · exact fun given => absurd (present_of_kind (solid n given)) new.not_gt
  · refine (filled.mem_iff.mp mem).imp_right fun texts => ⟨filled.kind_eq texts, ?_⟩
    exact (reuse.origin n texts).imp_left (reusedTexts_subset _ _ _ ·)

/-- The nodes for items show them, whatever is given: given nodes stand for themselves and texts have the characters
that are asked for. They are told apart just when no text that a text item takes over is given as well, and a given node
that is not taken over keeps its characters. -/
theorem nodes_told_apart_iff (distinct : current.Nodup) (present : ∀ n ∈ current, n < doc.nodes.size)
    (once : (itemNodes items).Nodup) (solid : ∀ n ∈ itemNodes items, doc.kind n ≠ .fragment) :
    let ready := Region.nodesFor current items doc
    Forall₂ (ShowsItem ready.2) items ready.1 ∧
      (ready.1.Nodup ↔ ∀ n ∈ reusedTexts doc current items, n ∉ itemNodes items) ∧
      ∀ n ∈ itemNodes items, n ∉ reusedTexts doc current items → ready.2.kind n = doc.kind n ∧ ready.2.data n = doc.data n := by
  obtain ⟨filled, _, kinds, datas⟩ := filled_nodesFor current items doc
  have reuse := reuse_nodesFor distinct present items
  have unfilled : ∀ n ∈ itemNodes items, n ∉ reusedTexts doc current items →
      n ∉ filledNodes items (nodesFor current items doc).1 := by
    intro n given apart inside
    rcases reuse.origin n inside with old | new
    · exact apart old
    · exact absurd (present_of_kind (solid n given)) new.not_gt
  refine ⟨filled.shows reuse.once, filled.nodup_iff.trans ⟨fun told n taken => told.2.2 n (reuse.reused taken), fun apart => ?_⟩,
    fun n given apart => ?_⟩
  · exact ⟨once, reuse.once, fun n inside given => unfilled n given (fun taken => apart n taken given) inside⟩
  · have bound := present_of_kind (solid n given)
    exact ⟨kinds n bound, datas n bound (unfilled n given apart)⟩

def captioned : Document Unit Property where
  nodes := #[
    { kind := .element "p" false, children := [1, 2] },
    { kind := .text, data := "a", parent := some 0 }, { kind := .element "b" false, parent := some 0 }]

/-- At the place of the element there is no text to take over: the text that is given keeps its characters, and the other one
gets a node of its own. -/
theorem nodes_told_apart_iff_captioned : let ready := Region.nodesFor [2, 1] [.text "x", .node 1] captioned
    ready.1.Nodup ∧ ready.2.data 1 = "a" := by
  obtain ⟨-, apart, kept⟩ := @nodes_told_apart_iff Unit Property captioned [.text "x", .node 1] [2, 1] (by decide)
    (by decide) (by decide) (by decide)
  exact ⟨apart.mpr (by decide), (kept 1 (by decide) (by decide)).2⟩

/-- The text of the paragraph is given behind another text, which takes it over: the region holds it twice, and what was in it
is gone. -/
theorem given_text_taken_for_other : let items : List Item := [.text "x", .node 1]
    ([1, 2].Nodup ∧ (itemNodes items).Nodup ∧ ∀ n ∈ itemNodes items, captioned.kind n ≠ .fragment) ∧
      (Region.nodesFor [1, 2] items captioned).1 = [1, 1] ∧
      let shown := ({ parent := 0, current := [1, 2] } : Region).update items captioned
      shown.2.children 0 = [1] ∧ captioned.data 1 = "a" ∧ shown.2.data 1 = "x" := by
  decide +kernel

end LiveMarkup.Live
