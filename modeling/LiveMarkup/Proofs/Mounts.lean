import LiveMarkup.Proofs.Resolutions

/-!
Where views come to be shown, and what they do to the rest of a page. Showing other items in a region moves only its own
nodes, and a region does not notice what happens to nodes other than its own and its siblings.
-/

namespace LiveMarkup.Live
open Document Reactive List Option

variable {γ τ : Type} {start world world' world'' : World γ τ} {first doc next : Document γ Property} {items : List Item}
  {id other : RegionId}

section Spots

/-- Where a view comes to be shown: at the end of a parent, before one of its nodes, or behind a marker. -/
inductive Spot where
  | last (parent : NodeId)
  | before (parent next : NodeId)
  | behind (parent marker : NodeId)

def Spot.region : Spot → Region
  | last parent => { parent }
  | before parent next => { parent, before := some next }
  | behind parent marker => { parent, start := some marker }

def Spot.mount (view : View γ) : Spot → LiveProgram γ τ Unit
  | last parent => insert parent view none
  | before parent next => insert parent view (some next)
  | behind _ marker => insertAtMarker marker view

/-- A view and where it comes to be shown, for a scope: in a spot between `left` and `right`, with elements out of `own`. -/
structure Mount (γ : Type) where
  view : View γ
  spot : Spot
  scope : OwnerId
  left : List NodeId
  right : List NodeId
  own : List NodeId

/-- Nodes are kept and are of the kinds they were. -/
structure Faithful (first doc : Document γ Property) : Prop where
  size_le : first.nodes.size ≤ doc.nodes.size
  kind_eq : ∀ n < first.nodes.size, doc.kind n = first.kind n

theorem Faithful.refl (doc : Document γ Property) : Faithful doc doc := ⟨le_rfl, fun _ _ => rfl⟩

theorem Faithful.trans (one : Faithful first doc) (two : Faithful doc next) : Faithful first next :=
  ⟨one.size_le.trans two.size_le, fun n bound => (two.kind_eq n (bound.trans_le one.size_le)).trans (one.kind_eq n bound)⟩

end Spots

namespace Mount

variable (mount : Mount γ)

def parent : NodeId := mount.spot.region.parent

def region : Region := { mount.spot.region with owner := some mount.scope }

/-- Nodes that can be shown by a mount: elements of its own, each of them once, that stand neither beside its spot nor mark
it. -/
structure Apt (first : Document γ Property) (items : List Item) : Prop where
  once : (itemNodes items).Nodup
  element : ∀ n ∈ itemNodes items, (first.kind n).isElement = true
  apart : ∀ n ∈ itemNodes items, n ∉ mount.left ++ mount.spot.region.start.toList ++ mount.right
  own : ∀ n ∈ itemNodes items, n ∈ mount.own

structure InPlace (first doc : Document γ Property) (region : Region) : Prop where
  region_eq : region = { mount.region with current := region.current, ending := region.ending }
  standing : StandsBetween doc region mount.left mount.right
  closed : ∀ e, region.ending = some e → isMarker doc e regionEnd = true ∧ mount.spot.region.start.isSome = true
  beside : ∀ n ∈ mount.left ++ mount.spot.region.start.toList ++ mount.right,
    doc.kind n = first.kind n ∧ doc.data n = first.data n

/-- Where the elements of a mount are: where they were at first, in its region, or nowhere. -/
structure Homed (first doc : Document γ Property) : Prop where
  there : mount.parent < doc.nodes.size
  inner : ∀ n ∈ doc.children mount.parent, doc.parent? n = some mount.parent
  own : ∀ n ∈ mount.own, n < doc.nodes.size ∧
    (doc.parent? n = none ∨ doc.parent? n = some mount.parent ∨ doc.parent? n = first.parent? n)

/-- What happens elsewhere does not touch the region of a mount, its siblings and its elements. -/
structure Heeds (id : RegionId) (world world' : World γ τ) : Prop extends Faithful world.document world'.document where
  region_eq : world'.regions[id]? = world.regions[id]?
  children_eq : world'.document.children mount.parent = world.document.children mount.parent
  parent?_eq : ∀ n, n ∈ mount.own ∨ n ∈ world.document.children mount.parent →
    world'.document.parent? n = world.document.parent? n
  data_eq : ∀ n ∈ world.document.children mount.parent, world'.document.data n = world.document.data n

/-- What showing other items in the region of a mount may change. -/
structure Renews (id : RegionId) (world world' : World γ τ) : Prop extends
    Retains world.document world'.document (world.document.children mount.parent) where
  eq : world' = { world with document := world'.document, regions := world'.regions, lazies := world'.lazies }
  parent?_eq : ∀ m < world.document.nodes.size, m ∉ world.document.children mount.parent → m ∉ mount.own →
    world'.document.parent? m = world.document.parent? m
  children_eq : ∀ m < world.document.nodes.size, m ≠ mount.parent → (∀ n ∈ mount.own, world.document.parent? n ≠ some m) →
    world'.document.children m = world.document.children m
  regions : ∀ i, i ≠ id → world'.regions[i]? = world.regions[i]?
  lazies : ∀ l < world.lazies.size, world'.lazies[l]? = world.lazies[l]?

/-- Between the siblings of a spot, which are as they were, there stand the nodes of items; behind them there may be a
closing marker if the spot is behind a marker. -/
def InSpot (first : Document γ Property) (items : List Item) (doc : Document γ Property) : Prop :=
  ∃ current ending, doc.children mount.parent =
      mount.left ++ mount.spot.region.start.toList ++ current ++ Option.toList ending ++ mount.right ∧
    Forall₂ (ShowsItem doc) (mergeItems items) current ∧
    (∀ e, ending = some e → isMarker doc e regionEnd = true ∧ mount.spot.region.start.isSome = true) ∧
    ∀ n ∈ mount.left ++ mount.spot.region.start.toList ++ mount.right,
      doc.kind n = first.kind n ∧ doc.data n = first.data n

/-- The region of a mount stands in its spot, and its elements are where they may be. -/
def Stays (start world : World γ τ) : Prop :=
  Faithful start.document world.document ∧ mount.Homed start.document world.document ∧
    ∃ region, world.regions[start.regions.size]? = some ⟨region, none⟩ ∧ mount.InPlace start.document world.document region

end Mount

variable {mount neighbour : Mount γ} {region : Region}

section Placing

open Mount

theorem Mount.InPlace.begin (standing : StandsBetween first mount.spot.region mount.left mount.right) :
    mount.InPlace first first mount.region where
  region_eq := by cases spot : mount.spot <;> simp [Mount.region, Spot.region, spot]
  standing := { standing with }
  closed e found := by
    have none : mount.region.ending = Option.none := by cases spot : mount.spot <;> simp [Mount.region, Spot.region, spot]
    simp [none] at found
  beside n _ := ⟨rfl, rfl⟩

theorem Mount.Homed.begin (standing : StandsBetween first mount.spot.region mount.left mount.right)
    (own : ∀ n ∈ mount.own, n < first.nodes.size) : mount.Homed first first where
  there := by
    obtain ⟨_, found⟩ := isSome_iff_exists.mp standing.lists.present
    exact lt_size_of_node? found
  inner n mem := by
    rw [Mount.parent, standing.lists.children_eq] at mem
    exact standing.lists.parents n mem
  own n mem := ⟨own n mem, .inr (.inr rfl)⟩

variable (inPlace : mount.InPlace first doc region)
include inPlace

theorem Mount.InPlace.start_eq : region.start = mount.spot.region.start := by rw [inPlace.region_eq, Mount.region]

theorem Mount.InPlace.parent_eq : region.parent = mount.parent := by rw [inPlace.region_eq, Mount.region, Mount.parent]

theorem Mount.InPlace.children_eq : doc.children mount.parent =
    mount.left ++ mount.spot.region.start.toList ++ region.current ++ region.ending.toList ++ mount.right := by
  rw [← inPlace.start_eq, ← inPlace.parent_eq, inPlace.standing.lists.children_eq]

theorem Mount.InPlace.current_subset : region.current ⊆ doc.children mount.parent := by
  intro n mem
  rw [inPlace.children_eq]
  simp [mem]

theorem Mount.InPlace.beside_subset :
    mount.left ++ mount.spot.region.start.toList ++ mount.right ⊆ doc.children mount.parent := by
  intro n mem
  rw [inPlace.children_eq]
  simp only [mem_append] at mem ⊢
  tauto

theorem Mount.InPlace.showable (faithful : Faithful first doc) (apt : mount.Apt first items) :
    Showable doc region mount.left mount.right (mergeItems items) := by
  have kinds : ∀ n ∈ itemNodes items, (doc.kind n).isElement = true := by
    intro n mem
    have element := apt.element n mem
    rw [faithful.kind_eq n (present_of_kind fun fragment => by simp [fragment, Kind.isElement] at element)]
    exact element
  refine ⟨(itemNodes_mergeItems items).symm ▸ apt.once, fun n mem => ?_, fun n mem => ?_⟩
  · rw [itemNodes_mergeItems] at mem
    have element := kinds n mem
    constructor <;> intro same <;> simp [same, Kind.isElement] at element
  · rw [itemNodes_mergeItems] at mem
    have apart := apt.apart n mem
    simp only [mem_append, not_or] at apart
    rw [inPlace.start_eq]
    refine ⟨apart.1.1, apart.1.2, fun ended => ?_, apart.2⟩
    have marks := (inPlace.closed n (mem_toList.mp ended)).1
    have element := kinds n mem
    simp only [isMarker, isComment, Bool.and_eq_true, beq_iff_eq] at marks
    simp [marks.1, Kind.isElement] at element

theorem Mount.InPlace.updated {shown : Region × Document γ Property}
    (updated : Updated doc region mount.left mount.right items shown) : mount.InPlace first shown.2 shown.1 where
  region_eq := by
    rw [updated.region_eq, inPlace.region_eq]
  standing := updated.standing
  closed e found := by
    cases before : region.ending with
    | none =>
      have made := (updated.closes.made before).mp (by rw [found]; rfl)
      exact ⟨updated.closes.marker before e found, inPlace.start_eq ▸ made.1⟩
    | some old =>
      obtain rfl : old = e := some.inj ((updated.closes.keeps old before).symm.trans found)
      obtain ⟨marks, behind⟩ := inPlace.closed old before
      refine ⟨isMarker_retained updated.kept marks fun mem => ?_, behind⟩
      exact (inPlace.standing.apart mem).2 (mem_append_left _ (mem_toList.mpr before))
  beside n mem := by
    have listed := inPlace.beside_subset mem
    have apart : n ∉ region.current := by
      intro member
      obtain ⟨noLead, noTail⟩ := inPlace.standing.apart member
      rcases mem_append.mp mem with ahead | behind
      · exact noLead (inPlace.start_eq ▸ ahead)
      · exact noTail (mem_append_right _ behind)
    rw [← inPlace.parent_eq, inPlace.standing.lists.children_eq] at listed
    have bound := lt_size_of_lists inPlace.standing.lists n listed
    obtain ⟨kind, data⟩ := inPlace.beside n mem
    exact ⟨(updated.kept.kind_eq n bound).trans kind, (updated.kept.data_eq n bound apart).trans data⟩

theorem Mount.InPlace.inSpot (shows : Forall₂ (ShowsItem doc) (mergeItems items) region.current) :
    mount.InSpot first items doc :=
  ⟨region.current, region.ending, inPlace.children_eq, shows, inPlace.closed, inPlace.beside⟩

end Placing

section Framing

open Mount

theorem Mount.Heeds.refl (id : RegionId) (world : World γ τ) : mount.Heeds id world world :=
  ⟨.refl _, rfl, rfl, fun _ _ => rfl, fun _ _ => rfl⟩

theorem Mount.Heeds.trans (one : mount.Heeds id world world') (two : mount.Heeds id world' world'') :
    mount.Heeds id world world'' where
  toFaithful := one.toFaithful.trans two.toFaithful
  region_eq := two.region_eq.trans one.region_eq
  children_eq := two.children_eq.trans one.children_eq
  parent?_eq n mem := (two.parent?_eq n (by rwa [one.children_eq])).trans (one.parent?_eq n mem)
  data_eq n mem := (two.data_eq n (by rwa [one.children_eq])).trans (one.data_eq n mem)

theorem Mount.Homed.lt_size (homed : mount.Homed first doc) {n : NodeId} (mem : n ∈ doc.children mount.parent) :
    n < doc.nodes.size := by
  obtain ⟨_, found⟩ := isSome_iff_exists.mp (present_of_parent? (homed.inner n mem))
  exact lt_size_of_node? found

theorem Mount.Heeds.homed (heeds : mount.Heeds id world world') (homed : mount.Homed first world.document) :
    mount.Homed first world'.document where
  there := homed.there.trans_le heeds.size_le
  inner n mem := by
    rw [heeds.children_eq] at mem
    exact (heeds.parent?_eq n (.inr mem)).trans (homed.inner n mem)
  own n mem := by
    rw [heeds.parent?_eq n (.inl mem)]
    exact ⟨(homed.own n mem).1.trans_le heeds.size_le, (homed.own n mem).2⟩

theorem Mount.Heeds.shows (heeds : mount.Heeds id world world') (homed : mount.Homed first world.document)
    (inPlace : mount.InPlace first world.document region)
    (shows : Forall₂ (ShowsItem world.document) items region.current) :
    Forall₂ (ShowsItem world'.document) items region.current := by
  refine forall₂_iff_get.mpr ⟨shows.length_eq, fun i bound bound' => ?_⟩
  have listed := inPlace.current_subset (get_mem region.current ⟨i, bound'⟩)
  have here := (forall₂_iff_get.mp shows).2 i bound bound'
  cases item : items.get ⟨i, bound⟩ with
  | node =>
    rw [item] at here
    exact here
  | text =>
    rw [item] at here
    exact ⟨(heeds.kind_eq _ (homed.lt_size listed)).trans here.1, (heeds.data_eq _ listed).trans here.2⟩

theorem Mount.Heeds.inPlace (heeds : mount.Heeds id world world') (homed : mount.Homed first world.document)
    (inPlace : mount.InPlace first world.document region) : mount.InPlace first world'.document region := by
  have listed := inPlace.children_eq
  have same : ∀ n ∈ world.document.children mount.parent,
      world'.document.kind n = world.document.kind n ∧ world'.document.data n = world.document.data n :=
    fun n mem => ⟨heeds.kind_eq n (homed.lt_size mem), heeds.data_eq n mem⟩
  refine ⟨inPlace.region_eq, ⟨⟨?_, ?_, inPlace.standing.lists.once, fun n mem => ?_⟩, inPlace.standing.fixed,
    inPlace.standing.last⟩, fun e found => ?_, fun n mem => ?_⟩
  · rw [inPlace.parent_eq]
    simp [node?, homed.there.trans_le heeds.size_le]
  · rw [inPlace.parent_eq, heeds.children_eq, ← inPlace.parent_eq]
    exact inPlace.standing.lists.children_eq
  · have mem' : n ∈ world.document.children mount.parent := by
      rwa [← inPlace.parent_eq, inPlace.standing.lists.children_eq]
    rw [heeds.parent?_eq n (.inr mem')]
    exact inPlace.standing.lists.parents n mem
  · obtain ⟨marks, behind⟩ := inPlace.closed e found
    obtain ⟨kind, data⟩ := same e (by rw [listed]; simp [found])
    exact ⟨by simpa [isMarker, isComment, kind, data] using marks, behind⟩
  · obtain ⟨kind, data⟩ := same n (inPlace.beside_subset mem)
    rw [kind, data]
    exact inPlace.beside n mem

theorem Mount.Heeds.standing (heeds : mount.Heeds id world world')
    (standing : StandsBetween world.document mount.spot.region mount.left mount.right)
    (own : ∀ n ∈ mount.own, n < world.document.nodes.size) :
    StandsBetween world'.document mount.spot.region mount.left mount.right := by
  have placed := heeds.inPlace (.begin standing own) (.begin standing)
  exact ⟨placed.standing.lists, standing.fixed, standing.last⟩

theorem Mount.Heeds.stays (heeds : mount.Heeds start.regions.size world world') (stays : mount.Stays start world) :
    mount.Stays start world' := by
  obtain ⟨faithful, homed, region, found, inPlace⟩ := stays
  exact ⟨faithful.trans heeds.toFaithful, heeds.homed homed, region, heeds.region_eq.trans found,
    heeds.inPlace homed inPlace⟩

theorem Mount.Renews.faithful (renews : mount.Renews id world world') : Faithful world.document world'.document :=
  ⟨renews.size_le, renews.kind_eq⟩

/-- Mounts under different parents and with different elements, none of which stood under the parent of the other one. -/
structure Mount.Apart (neighbour mount : Mount γ) (first' first : Document γ Property) : Prop where
  parents : neighbour.parent ≠ mount.parent
  own : ∀ n ∈ neighbour.own, n ∉ mount.own
  away : ∀ n ∈ neighbour.own, first'.parent? n ≠ some mount.parent
  away' : ∀ n ∈ mount.own, first.parent? n ≠ some neighbour.parent

theorem Mount.Apart.symm {first' : Document γ Property} (apart : neighbour.Apart mount first' first) :
    mount.Apart neighbour first first' :=
  ⟨apart.parents.symm, fun n mine theirs => apart.own n theirs mine, apart.away', apart.away⟩

theorem Mount.Renews.heeds {first' : Document γ Property} (renews : neighbour.Renews other world world')
    (apart : neighbour.Apart mount first' first) (ids : id ≠ other) (homed' : neighbour.Homed first' world.document)
    (homed : mount.Homed first world.document) : mount.Heeds id world world' := by
  obtain ⟨apart, own, away, away'⟩ := apart
  have outside : ∀ n ∈ neighbour.own, world.document.parent? n ≠ some mount.parent := by
    intro n mem stands
    rcases (homed'.own n mem).2 with none | there | old
    · simp [none] at stands
    · exact apart (some.inj (there.symm.trans stands))
    · exact away n mem (old.symm.trans stands)
  have foreign : ∀ n, n ∈ mount.own ∨ n ∈ world.document.children mount.parent →
      n < world.document.nodes.size ∧ n ∉ world.document.children neighbour.parent ∧ n ∉ neighbour.own := by
    rintro n (mine | stands)
    · refine ⟨(homed.own n mine).1, fun mem => ?_, fun theirs => own n theirs mine⟩
      have under := homed'.inner n mem
      rcases (homed.own n mine).2 with none | there | old
      · simp [none] at under
      · exact apart (some.inj (under.symm.trans there))
      · exact away' n mine (old.symm.trans under)
    · have under := homed.inner n stands
      refine ⟨homed.lt_size stands, fun mem => ?_, fun theirs => outside n theirs under⟩
      exact apart (some.inj ((homed'.inner n mem).symm.trans under))
  refine ⟨renews.faithful, renews.regions id ids, ?_, fun n mem => ?_, fun n mem => ?_⟩
  · exact renews.children_eq mount.parent homed.there (Ne.symm apart) outside
  · obtain ⟨bound, listed, theirs⟩ := foreign n mem
    exact renews.parent?_eq n bound listed theirs
  · obtain ⟨bound, listed, _⟩ := foreign n (.inr mem)
    exact renews.data_eq n bound listed

end Framing

section Updating

open Mount

theorem Mount.InPlace.renews (inPlace : mount.InPlace first world.document region)
    (faithful : Faithful first world.document) (apt : mount.Apt first items) (id : RegionId) :
    mount.Renews id world (world.updated id region items) := by
  have updated := inPlace.standing.update (inPlace.showable faithful apt)
  have parent := inPlace.parent_eq
  have listed := inPlace.current_subset
  have merged := itemNodes_mergeItems items
  refine ⟨⟨updated.kept.size_le, updated.kept.node?_eq, fun m bound absent =>
    updated.kept.data_eq m bound fun mem => absent (listed mem)⟩, rfl, fun m bound absent own => ?_, fun m bound apart away => ?_,
    fun i apart => ?_, fun _ _ => rfl⟩
  · refine updated.spares.parent?_eq m bound fun mem => ?_
    rcases mem_append.mp mem with old | new
    · exact absent (listed old)
    · exact own (apt.own m (merged ▸ new))
  · refine updated.spares.children_eq m bound (parent ▸ apart) fun n mem stands => ?_
    rcases mem_append.mp mem with old | new
    · have under := inPlace.standing.lists.parents n (by simp [old])
      exact apart (some.inj (stands.symm.trans (under.trans (congrArg some parent))))
    · exact away n (apt.own n (merged ▸ new)) stands
  · simp [World.updated, Array.getElem?_modify, Ne.symm apart]

theorem Mount.renews_mounted (mount : Mount γ) (start : World γ τ) {lazies : Array (Lazy γ)}
    (same : ∀ l < start.lazies.size, lazies[l]? = start.lazies[l]?) :
    mount.Renews start.regions.size start { start.mounted mount.region none with lazies } :=
  ⟨retains_of_rearranged (.refl _) _, rfl, fun _ _ _ _ => rfl, fun _ _ _ _ => rfl, fun i apart => by
    rw [World.mounted, Array.getElem?_push, if_neg apart], same⟩

theorem Mount.InPlace.homed (inPlace : mount.InPlace first doc region) (faithful : Faithful first doc)
    (apt : mount.Apt first items) (homed : mount.Homed first doc) :
    mount.Homed first (region.update (mergeItems items) doc).2 := by
  have updated := inPlace.standing.update (inPlace.showable faithful apt)
  have placed := inPlace.updated updated
  have lists := placed.standing.lists
  rw [placed.parent_eq] at lists
  refine ⟨homed.there.trans_le updated.kept.size_le, fun n mem => ?_, fun n mem => ?_⟩
  · refine lists.parents n ?_
    rwa [← lists.children_eq]
  · refine ⟨(homed.own n mem).1.trans_le updated.kept.size_le, ?_⟩
    by_cases now : n ∈ (region.update (mergeItems items) doc).1.current
    · exact .inr (.inl (lists.parents n (by simp [now])))
    · by_cases old : n ∈ region.current
      · exact .inl (updated.gone n old now)
      · have strange : n ∉ region.current ++ itemNodes (mergeItems items) := by
          rw [mem_append, not_or]
          exact ⟨old, fun given => now (mem_of_itemNodes updated.shows given)⟩
        rw [updated.spares.parent?_eq n (homed.own n mem).1 strange]
        exact (homed.own n mem).2

end Updating

end LiveMarkup.Live
