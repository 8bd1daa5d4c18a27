import LiveMarkup.Proofs.Adoption
import LiveMarkup.Proofs.Rendering
import LiveMarkup.Proofs.SharedTexts

/-!
Stand-ins. Markup that is read again gives new nodes for old ones. A region that is given items of which each is the same as
before, or a new node that carries the same tree, puts the new nodes in the place of the old ones, and what its parent holds
looks the same.
-/

namespace LiveMarkup.Document
open Markup (Tree)

variable {η π : Type} {doc middle next : Document η π}

section Unaltered

def Unaltered (doc next : Document η π) (n : NodeId) : Prop :=
  next.node? n = (doc.node? n).map fun node => { node with parent := next.parent? n }

variable {n : NodeId}

theorem Rearranged.unaltered (rearranged : Rearranged doc next) (below : next.children n = doc.children n) :
    Unaltered doc next n := by
  unfold Unaltered
  rw [rearranged.node?_eq, below]
  cases found : doc.node? n <;> simp [children, found]

theorem Unaltered.node? {node : Node η π} (same : Unaltered doc next n) (found : doc.node? n = some node) :
    ∃ parent, next.node? n = some { node with parent } :=
  ⟨next.parent? n, by rw [same, found]; rfl⟩

mutual

theorem Shows.carries_unaltered {mem : NodeId → Prop} {parent : Option NodeId} {tree : Tree} {n : NodeId}
    (shows : doc.Shows mem parent tree n) (same : ∀ m, mem m → Unaltered doc next m) : next.Carries tree n := by
  match tree with
  | .text data | .comment data =>
    obtain ⟨_, found⟩ := (same n shows.1).node? shows.2
    exact ⟨_, found, rfl, rfl, rfl, rfl⟩
  | .element _ _ _ _ =>
    obtain ⟨here, _, found, below⟩ := shows
    obtain ⟨_, kept⟩ := (same n here).node? found
    exact ⟨_, kept, rfl, rfl, rfl, below.carries_unaltered fun m inner => same m inner.1⟩

theorem ShowsAll.carries_unaltered {mem : NodeId → Prop} {parent : Option NodeId} {trees : List Tree}
    {nodes : List NodeId} (shows : doc.ShowsAll mem parent trees nodes) (same : ∀ m, mem m → Unaltered doc next m) :
    next.CarriesAll trees nodes := by
  match trees with
  | [] => exact shows
  | tree :: trees =>
    obtain ⟨n, rest, rfl, first, others⟩ := shows
    exact ⟨n, rest, rfl, first.carries_unaltered fun m inner => same m inner.1,
      others.carries_unaltered fun m inner => same m inner.1⟩

end

variable {above : NodeId} {levels : Nat} {trees : List Tree}

mutual

theorem Carries.below_altered (same : ∀ m, m ≠ above → Unaltered doc next m)
    (high : ∀ other, doc.Carries other above → levels < other.levels) {tree : Tree} {n : NodeId}
    (carries : doc.Carries tree n) (low : tree.levels ≤ levels) : next.Carries tree n := by
  have apart : n ≠ above := fun here => absurd (high tree (here ▸ carries)) low.not_gt
  match tree with
  | .text data | .comment data =>
    obtain ⟨_, found, rest⟩ := carries
    obtain ⟨_, kept⟩ := (same n apart).node? found
    exact ⟨_, kept, rest⟩
  | .element _ _ _ _ =>
    obtain ⟨_, found, kind, data, names, below⟩ := carries
    obtain ⟨_, kept⟩ := (same n apart).node? found
    rw [Tree.levels] at low
    exact ⟨_, kept, kind, data, names, below.below_altered same high (by omega)⟩

theorem CarriesAll.below_altered (same : ∀ m, m ≠ above → Unaltered doc next m)
    (high : ∀ other, doc.Carries other above → levels < other.levels) {trees : List Tree} {nodes : List NodeId}
    (carries : doc.CarriesAll trees nodes) (low : Tree.levelsOfAll trees ≤ levels) : next.CarriesAll trees nodes := by
  match trees with
  | [] => exact carries
  | tree :: trees =>
    obtain ⟨n, rest, rfl, first, others⟩ := carries
    rw [Tree.levelsOfAll, Nat.max_le] at low
    exact ⟨n, rest, rfl, first.below_altered same high low.1, others.below_altered same high low.2⟩

end

theorem CarriesAll.lt_levels (carries : doc.CarriesAll trees (doc.children n)) {tree : Tree}
    (whole : doc.Carries tree n) : Tree.levelsOfAll trees < tree.levels := by
  obtain ⟨_, _, found, below, levels⟩ := whole.record
  rw [children_of_node? found] at carries
  rw [levels, carries.unique below]
  omega

theorem CarriesAll.exchange {nodes others : List NodeId} (carries : doc.CarriesAll trees nodes)
    (same : List.Forall₂ (fun n m => ∀ tree, doc.Carries tree n → doc.Carries tree m) nodes others) :
    doc.CarriesAll trees others := by
  induction same generalizing trees with
  | nil => exact carries
  | cons first _ ih =>
    match trees with
    | [] => cases show _ :: _ = [] from carries
    | tree :: trees =>
      obtain ⟨_, _, same, here, later⟩ := carries
      obtain ⟨rfl, rfl⟩ := List.cons.inj same
      exact ⟨_, _, rfl, first tree here, ih later⟩

theorem inner_congr (kind : next.kind n = doc.kind n) (before : doc.CarriesAll trees (doc.children n))
    (after : next.CarriesAll trees (next.children n)) : next.inner n = doc.inner n := by
  rw [inner, inner, before.trees, after.trees, holdsRawText, holdsRawText, tag?, tag?, kind]

end Unaltered

end LiveMarkup.Document

namespace LiveMarkup.Live
open Document Markup Reactive List Region

variable {η π : Type} {doc next : Document η π} {parent : NodeId} {lead old new tail : List NodeId}

theorem Refilled.carriesAll (refilled : Refilled doc next parent lead old new tail) {trees : List Tree}
    (children : doc.children parent = lead ++ (old ++ tail)) (carries : doc.CarriesAll trees (doc.children parent))
    (same : List.Forall₂ (fun n m => ∀ tree, doc.Carries tree n → doc.Carries tree m) old new) :
    next.CarriesAll trees (next.children parent) := by
  have high : ∀ other, doc.Carries other parent → Tree.levelsOfAll trees < other.levels := fun _ => carries.lt_levels
  have stays : ∀ nodes : List NodeId, List.Forall₂ (fun n m => ∀ tree, doc.Carries tree n → doc.Carries tree m) nodes nodes :=
    fun nodes => forall₂_same.mpr fun _ _ _ => id
  rw [children] at carries
  have swapped := carries.exchange (rel_append (stays lead) (rel_append same (stays tail)))
  rw [refilled.lists.children_eq]
  exact swapped.below_altered (fun m apart => refilled.rearranged.unaltered (refilled.children_eq m apart)) high (Nat.le_refl _)

section Items

variable {floor : Nat} {items others : List Item} {item other : Item} {nodes : List NodeId}

/-- An item stands in for one before: it is the same text or the same node, or a node that was made since and carries what the
one before carries. -/
inductive StandsIn (doc : Document η π) (floor : Nat) : Item → Item → Prop where
  | text (data : String) : StandsIn doc floor (.text data) (.text data)
  | node {n : NodeId} (solid : doc.isFragment n = false) : StandsIn doc floor (.node n) (.node n)
  | tree {n m : NodeId} {tree : Tree} (old : doc.Carries tree n) (new : doc.Carries tree m) (fresh : floor ≤ m)
      (free : doc.parent? m = none) : StandsIn doc floor (.node n) (.node m)

theorem standIns_pushItem (standIns : Forall₂ (StandsIn doc floor) items others) (last : StandsIn doc floor item other) :
    Forall₂ (StandsIn doc floor) (pushItem items item) (pushItem others other) := by
  have concat : Forall₂ (StandsIn doc floor) (items ++ [item]) (others ++ [other]) :=
    rel_append standIns (.cons last .nil)
  cases last with
  | node => exact concat
  | tree => exact concat
  | text data =>
    by_cases empty : data = ""
    · simpa only [pushItem, empty, if_true] using standIns
    · simp only [pushItem, empty, if_false]
      rcases eq_nil_or_concat' items with rfl | ⟨front, before, rfl⟩
      · cases standIns
        exact concat
      · obtain ⟨_, _, rfl, ahead, end_⟩ := forall₂_append_left standIns
        obtain ⟨_, _, final, no_more, rfl⟩ := forall₂_cons_left_iff.mp end_
        obtain rfl := forall₂_nil_left_iff.mp no_more
        cases final with
        | text before => simpa using rel_append ahead (.cons (.text (before ++ data)) .nil)
        | node => simpa using concat
        | tree => simpa using concat

theorem standIns_mergeItems (standIns : Forall₂ (StandsIn doc floor) items others) :
    Forall₂ (StandsIn doc floor) (mergeItems items) (mergeItems others) := by
  suffices every : ∀ front front', Forall₂ (StandsIn doc floor) front front' →
      Forall₂ (StandsIn doc floor) (items.foldl pushItem front) (others.foldl pushItem front') from every [] [] .nil
  induction standIns with
  | nil => exact fun _ _ ahead => ahead
  | cons first _ ih => exact fun _ _ ahead => ih _ _ (standIns_pushItem ahead first)

end Items

section Relieving

variable {floor : Nat} {items others : List Item} {nodes fresh : List NodeId}

/-- The nodes among items that were made since. -/
def madeNodes (floor : Nat) (items : List Item) : List NodeId := (itemNodes items).filter (floor ≤ ·)

/-- Nodes relieve those of a region: each is one of them or was made since, and carries what the one in its place carries. -/
structure Relieved (doc : Document η π) (floor : Nat) (nodes : List NodeId) (items : List Item) (fresh : List NodeId) : Prop where
  once : fresh.Nodup
  origin : ∀ m ∈ fresh, m ∈ nodes ∨ floor ≤ m ∧ m ∈ itemNodes items ∧ doc.parent? m = none
  solid : ∀ m ∈ fresh, doc.isFragment m = false
  shows : Forall₂ (ShowsItem doc) items fresh
  same : Forall₂ (fun n m => ∀ tree, doc.Carries tree n → doc.Carries tree m) nodes fresh

theorem nodesFor_standIns (standIns : Forall₂ (StandsIn doc floor) items others)
    (shows : Forall₂ (ShowsItem doc) items nodes) (once : nodes.Nodup) (old : ∀ n ∈ nodes, n < floor)
    (made : (madeNodes floor others).Nodup) :
    ∃ fresh, nodesFor nodes others doc = (fresh, doc) ∧ Relieved doc floor nodes others fresh := by
  induction standIns generalizing nodes with
  | nil =>
    obtain rfl := forall₂_nil_left_iff.mp shows
    exact ⟨[], rfl, .nil, by simp, by simp, .nil, .nil⟩
  | @cons _ other _ others first _ ih =>
    obtain ⟨n, rest, here, later, rfl⟩ := forall₂_cons_left_iff.mp shows
    obtain ⟨apart, once⟩ := nodup_cons.mp once
    have small := old n (by simp)
    have behind := ih later once (fun m mem => old m (mem_cons_of_mem n mem))
    -- a node that stays is one of the region's, and a new one is apart from all of these
    have staying : ∀ fresh : List NodeId, Relieved doc floor rest others fresh → doc.isFragment n = false → ShowsItem doc other n →
        Relieved doc floor (n :: rest) (other :: others) (n :: fresh) := by
      intro fresh relieved solid shown
      refine ⟨nodup_cons.mpr ⟨fun mem => ?_, relieved.once⟩, fun m mem => ?_, fun m mem => ?_,
        .cons shown relieved.shows, .cons (fun _ => id) relieved.same⟩
      · rcases relieved.origin n mem with kept | ⟨new, _⟩
        · exact apart kept
        · exact absurd small new.not_gt
      · rcases mem_cons.mp mem with rfl | mem
        · exact .inl (by simp)
        · exact (relieved.origin m mem).imp (mem_cons_of_mem n) fun ⟨new, listed, free⟩ => ⟨new, mem_itemNodes_cons listed, free⟩
      · rcases mem_cons.mp mem with rfl | mem
        · exact solid
        · exact relieved.solid m mem
    cases first with
    | text =>
      obtain ⟨fresh, ready, relieved⟩ := behind made
      obtain ⟨kind, held⟩ := here
      have text : doc.isText n = true := by simp [isText, kind]
      refine ⟨n :: fresh, ?_, staying fresh relieved (by simp [isFragment, kind]) ⟨kind, held⟩⟩
      simp only [nodesFor, head?_cons, text, if_true, setData_eq_self held, drop_one, tail_cons, ready]
    | node solid =>
      obtain rfl : n = _ := here
      have made' : (madeNodes floor others).Nodup := by
        simpa [madeNodes, filter_cons, Nat.not_le_of_lt small] using made
      obtain ⟨fresh, ready, relieved⟩ := behind made'
      refine ⟨n :: fresh, ?_, staying fresh relieved solid rfl⟩
      simp only [nodesFor, drop_one, tail_cons, ready]
    | @tree _ m _ before after new free =>
      obtain rfl : n = _ := here
      have made' : m ∉ madeNodes floor others ∧ (madeNodes floor others).Nodup := by
        simpa [madeNodes, filter_cons, new] using made
      obtain ⟨fresh, ready, relieved⟩ := behind made'.2
      refine ⟨m :: fresh, by simp only [nodesFor, drop_one, tail_cons, ready],
        nodup_cons.mpr ⟨fun mem => ?_, relieved.once⟩, fun x mem => ?_, fun x mem => ?_, .cons rfl relieved.shows,
        .cons (fun _ whole => before.unique whole ▸ after) relieved.same⟩
      · rcases relieved.origin m mem with kept | ⟨_, listed, _⟩
        · exact absurd (old m (mem_cons_of_mem n kept)) new.not_gt
        · exact made'.1 (by simpa [madeNodes, new] using listed)
      · rcases mem_cons.mp mem with rfl | mem
        · exact .inr ⟨new, by simp, free⟩
        · exact (relieved.origin x mem).imp (mem_cons_of_mem n) fun ⟨new, listed, free⟩ => ⟨new, mem_itemNodes_cons listed, free⟩
      · rcases mem_cons.mp mem with rfl | mem
        · exact after.isFragment
        · exact relieved.solid x mem

theorem filled_of_shows (shows : Forall₂ (ShowsItem doc) items nodes) : Filled doc items nodes := by
  induction shows with
  | nil => exact .nil
  | @cons item n _ _ first _ ih =>
    cases item with
    | node own =>
      obtain rfl : n = own := first
      exact .node ih
    | text => exact .text (by simp [isText, first.1]) (fun _ => first.2) ih

theorem refilled_self (lists : doc.Lists parent (lead ++ (old ++ tail))) : Refilled doc doc parent lead old old tail := by
  refine ⟨.refl doc, lists, fun m => ?_, fun _ _ => rfl⟩
  by_cases here : m ∈ old
  · simp [here, lists.parents m (by simp [here])]
  · simp [here]

end Relieving

section Updating

variable {floor : Nat} {region : Region} {left right : List NodeId} {items others : List Item} {fresh : List NodeId}

theorem StandsBetween.fitting (standing : StandsBetween doc region left right)
    (small : ∀ n ∈ doc.children region.parent, n < floor) (relieved : Relieved doc floor region.current others fresh) :
    Fitting doc region.parent (left ++ region.start.toList) fresh (region.ending.toList ++ right) where
  once := relieved.once
  solid := relieved.solid
  inner m mem := by
    rcases relieved.origin m mem with kept | ⟨new, _⟩
    · exact standing.apart kept
    · have listed : ∀ n ∈ (left ++ region.start.toList) ++ (region.current ++ (region.ending.toList ++ right)), n < floor := by
        rw [← standing.around.children_eq]
        exact small
      refine ⟨fun ahead => ?_, fun behind => ?_⟩
      · exact absurd (listed m (mem_append_left _ ahead)) new.not_gt
      · exact absurd (listed m (mem_append_right _ (mem_append_right _ behind))) new.not_gt
  free m mem := by
    rcases relieved.origin m mem with kept | ⟨_, _, free⟩
    · exact .inr (standing.around.parents m (by simp [kept]))
    · exact .inl free

theorem StandsBetween.update_standIns (standing : StandsBetween doc region left right)
    (settled : items.length ≠ 1 → region.start = none ∨ region.ending.isSome)
    (shows : Forall₂ (ShowsItem doc) items region.current)
    (standIns : Forall₂ (StandsIn doc floor) items others) (small : ∀ n ∈ doc.children region.parent, n < floor)
    (made : (madeNodes floor others).Nodup) :
    ∃ fresh next, region.update others doc = ({ region with current := fresh }, next) ∧
      Relieved doc floor region.current others fresh ∧
      Refilled doc next region.parent (left ++ region.start.toList) region.current fresh (region.ending.toList ++ right) := by
  have lists := standing.around
  have distinct : region.current.Nodup := (nodup_append.mp (nodup_append.mp lists.once).2.1).1
  have old : ∀ n ∈ region.current, n < floor := fun n mem => small n (by simp [lists.children_eq, mem])
  obtain ⟨fresh, ready, relieved⟩ := nodesFor_standIns standIns shows distinct old made
  have fitting := standing.fitting small relieved
  have as_many : region.current.length = others.length := shows.length_eq.symm.trans standIns.length_eq
  have settled' : others.length ≠ 1 → region.start = none ∨ region.ending.isSome := by rwa [← standIns.length_eq]
  have staying : region.update others doc = (region, doc) → fresh = region.current → ∃ fresh next,
      region.update others doc = ({ region with current := fresh }, next) ∧ Relieved doc floor region.current others fresh ∧
        Refilled doc next region.parent (left ++ region.start.toList) region.current fresh (region.ending.toList ++ right) := by
    rintro same rfl
    exact ⟨_, doc, same, relieved, refilled_self lists⟩
  match others with
  | [] =>
    have empty : region.current = [] := length_eq_zero_iff.mp as_many
    have none : fresh = [] := forall₂_nil_left_iff.mp relieved.shows
    exact staying (update_eq_self (by rw [empty]; exact .nil) settled') (none.trans empty.symm)
  | [.text data] =>
    obtain ⟨n, single⟩ := length_eq_one_iff.mp as_many
    obtain ⟨m, only⟩ := length_eq_one_iff.mp relieved.shows.length_eq.symm
    obtain rfl : m = n := by simpa [only, single, itemNodes, Item.node?] using relieved.origin m (by simp [only])
    have filled := filled_of_shows relieved.shows
    rw [only, ← single] at filled
    exact staying (update_eq_self filled settled') (only.trans single.symm)
  | [.node m] =>
    have only : fresh = [m] := by
      obtain ⟨_, _, same, no_more, rfl⟩ := forall₂_cons_left_iff.mp relieved.shows
      rw [forall₂_nil_left_iff.mp no_more, show _ = m from same]
    by_cases same : region.current = [m]
    · exact staying (by rw [Region.update, if_pos same]) (only.trans same.symm)
    · obtain ⟨next, replaced, refilled⟩ := refilled_replace lists standing.bounded fitting
      refine ⟨fresh, next, ?_, relieved, refilled⟩
      rw [Region.update, if_neg same, ← only, replaced]
  | first :: second :: rest =>
    have long : ¬ region.current.length ≤ 1 := by simp [as_many]
    refine ⟨fresh, reconcile region.parent region.current fresh (region.mark doc) doc, ?_, relieved, ?_⟩
    · rw [update_several (by simp), ensureEnding_eq_self (settled' (by simp))]
      simp only [ready, if_neg long]
    · rw [standing.mark]
      exact refilled_reconcile lists fitting

theorem Updated.unaltered {m : NodeId} {shown : Region × Document η π} (updated : Updated doc region left right items shown)
    (standing : StandsBetween doc region left right) (bound : m < doc.nodes.size) (apart : m ≠ region.parent)
    (strange : m ∉ region.current) (away : ∀ n ∈ itemNodes items, doc.parent? n ≠ some m) : Unaltered doc shown.2 m := by
  have below : shown.2.children m = doc.children m := by
    refine updated.spares.children_eq m bound apart fun n mem stands => ?_
    rcases mem_append.mp mem with old | given
    · exact apart (Option.some.inj (stands.symm.trans (standing.around.parents n (by simp [old]))))
    · exact away n given stands
  rw [Unaltered, updated.kept.node?_eq m bound, below, updated.kept.data_eq m bound strange, children, Document.data]
  cases doc.node? m <;> rfl

end Updating

end LiveMarkup.Live
