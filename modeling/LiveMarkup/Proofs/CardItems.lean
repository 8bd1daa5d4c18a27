import LiveMarkup.Proofs.CardTemplates

/-!
The items of a card. Each is taken from the list where one is left there, or made anew from the template, and then they
come to stand in the list together.
-/

namespace LiveMarkup.Card
open Document Live Markup Reactive List Procedure Prod Program Line World
open Line hiding all data nodes

variable {level : Nat} {graph : CardGraph} {world world' : CardWorld} {fixed : NodeId → Prop} {doc next : CardDocument}
  {claim : Claim}

section Worlds

variable {kept : NodeId → Prop} {changed : List NodeId} {kept' : NodeId → Prop} {n : NodeId}

structure Reserved (world : CardWorld) (kept fixed : NodeId → Prop) : Prop extends Hosted world kept where
  fixed_lt : ∀ m, fixed m → m < world.document.nodes.size
  apart : ∀ m, fixed m → ¬ kept m

theorem Reserved.congr (reserved : Reserved world kept fixed) (document : world'.document = world.document)
    (host : world'.host = world.host) : Reserved world' kept fixed := by
  refine ⟨⟨?_, ?_⟩, ?_, reserved.apart⟩
  · rw [document]
    exact reserved.small
  · rw [document, host]
    exact reserved.shows
  · rw [document]
    exact reserved.fixed_lt

theorem Reserved.step (reserved : Reserved world kept fixed)
    (confined : Confined world.document world'.document changed) (elsewhere : ∀ n ∈ changed, ¬ kept n)
    (host : world'.host = world.host) : Reserved world' kept fixed := by
  have same : ∀ m, kept m → world'.document.node? m = world.document.node? m := fun m here =>
    confined.others m (reserved.small m here) fun mem => elsewhere m mem here
  refine ⟨⟨fun m here => ?_, fun shape root found => ?_⟩, fun m here => ?_, reserved.apart⟩
  · exact (reserved.small m here).trans_le confined.size_le
  · rw [host] at found
    exact (reserved.shows shape root found).frame same fun _ => id
  · exact (reserved.fixed_lt m here).trans_le confined.size_le

theorem Reserved.prepare (reserved : Reserved world kept fixed)
    (prepared : Prepared world world' kept kept') : Reserved world' kept' fixed :=
  ⟨prepared.hosted, fun m here => (reserved.fixed_lt m here).trans_le prepared.extended.size_le,
    fun m here kept => reserved.apart m here (prepared.older m (reserved.fixed_lt m here) kept)⟩

/-- A card stands in the document, beside items that stand nowhere yet. All of its nodes are apart from those of the
templates and from those that are fixed. -/
structure Placed (world : CardWorld) (parts : Parts) (loose : List Line) (fixed : NodeId → Prop) : Prop where
  standing : Standing world.document parts
  free : Standing.Loose world.document loose
  kept : ∃ kept, Reserved world kept fixed ∧ ∀ n ∈ parts.nodes ++ loose.flatMap Line.all, ¬ kept n ∧ ¬ fixed n

variable {parts parts' : Parts} {loose lines : List Line}

theorem Placed.congr (placed : Placed world parts loose fixed) (document : world'.document = world.document)
    (host : world'.host = world.host) : Placed world' parts loose fixed := by
  obtain ⟨kept, reserved, apart⟩ := placed.kept
  refine ⟨?_, ?_, kept, reserved.congr document host, apart⟩
  · rw [document]
    exact placed.standing
  · rw [document]
    exact placed.free

theorem Placed.step (placed : Placed world parts loose fixed)
    (confined : Confined world.document world'.document changed)
    (own : ∀ n ∈ changed, n ∈ parts.nodes ++ loose.flatMap all) (host : world'.host = world.host)
    (standing : Standing world'.document parts') (free : Standing.Loose world'.document lines)
    (grown : ∀ n ∈ parts'.nodes ++ lines.flatMap all,
      n ∈ parts.nodes ++ loose.flatMap all ∨ world.document.nodes.size ≤ n) :
    Placed world' parts' lines fixed ∧ ∀ m, fixed m → world'.document.node? m = world.document.node? m := by
  obtain ⟨kept, reserved, apart⟩ := placed.kept
  refine ⟨⟨standing, free, kept, reserved.step confined (fun n mem => (apart n (own n mem)).1) host,
    fun n mem => ?_⟩, fun m here => ?_⟩
  · rcases grown n mem with old | new
    · exact apart n old
    · exact ⟨fun here => absurd (reserved.small n here) (not_lt.mpr new),
        fun here => absurd (reserved.fixed_lt n here) (not_lt.mpr new)⟩
  · exact confined.others m (reserved.fixed_lt m here) fun mem => (apart m (own m mem)).2 here

theorem Standing.Loose.frame (loose : Standing.Loose doc lines)
    (same : ∀ n ∈ lines.flatMap all, next.node? n = doc.node? n) : Standing.Loose next lines :=
  ⟨fun line member => ⟨(loose.labelled line member).1.frame fun n mem =>
    same n (mem_flatMap.mpr ⟨line, member, mem⟩), (loose.labelled line member).2⟩, loose.once⟩

theorem Standing.Loose.lt_size (loose : Standing.Loose doc lines)
    (mem : n ∈ lines.flatMap all) : n < doc.nodes.size := by
  obtain ⟨line, member, here⟩ := mem_flatMap.mp mem
  exact (loose.labelled line member).1.lt_size n here

theorem Standing.apart_loose (standing : Standing doc parts) {line : Line}
    (labelled : Labelled doc line "li" [] none) (mem : n ∈ parts.nodes) : n ∉ line.all := by
  intro member
  have zone := labelled.zone n member
  simp only [Parts.nodes, mem_cons, mem_append, mem_flatMap] at mem
  rcases mem with rfl | rfl | rfl | rfl | heading | paragraph | ⟨other, there, item⟩ | tail
  · simp [standing.zone_root] at zone
  · simp [standing.zone_button] at zone
  · simp [standing.zone_plus] at zone
  · simp [standing.zone_list] at zone
  · simp [standing.heading.zone n heading] at zone
  · simp [standing.paragraph.zone n paragraph] at zone
  · have other_labelled := (standing.items other there).1
    refine other_labelled.disjoint labelled (fun same => ?_) item member
    have above := parent?_of_node? other_labelled.self_eq
    rw [same, parent?_of_node? labelled.self_eq] at above
    cases above
  · simp [standing.zone_tail tail] at zone

theorem Placed.lt_size (placed : Placed world parts loose fixed) :
    ∀ n ∈ parts.nodes ++ loose.flatMap all, n < world.document.nodes.size := by
  intro n mem
  rcases mem_append.mp mem with own | free
  · exact placed.standing.lt_size n own
  · exact placed.free.lt_size free

theorem Placed.prepare (placed : Placed world parts loose fixed) {kept : NodeId → Prop}
    (reserved : Reserved world kept fixed) (prepared : Prepared world world' kept kept')
    (apart : ∀ n ∈ parts.nodes ++ loose.flatMap all, ¬ kept n ∧ ¬ fixed n) :
    Placed world' parts loose fixed ∧ ∀ m, fixed m → world'.document.node? m = world.document.node? m := by
  have small := placed.lt_size
  have same : ∀ n ∈ parts.nodes ++ loose.flatMap all, world'.document.node? n = world.document.node? n :=
    fun n mem => prepared.extended.node?_eq n (small n mem)
  have large := placed.standing.large.trans prepared.extended.size_le
  refine ⟨⟨placed.standing.frame large fun n mem => same n (mem_append_left _ mem),
    placed.free.frame fun n mem => same n (mem_append_right _ mem), kept', reserved.prepare prepared,
    fun n mem => ⟨fun here => (apart n mem).1 (prepared.older n (small n mem) here), (apart n mem).2⟩⟩,
    fun m here => prepared.extended.node?_eq m (reserved.fixed_lt m here)⟩

end Worlds

section Lines

variable {owner : OwnerId} {line : Line} {above : Option NodeId}

/-- What a first showing over a line leaves when there was text exactly if there is to be. -/
def Kept (world world' : CardWorld) (line : Line) (text : Option (NodeId × String)) : Prop :=
  world'.document.changes = world.document.changes ∧ world'.hydration = world.hydration.count true ∧
    text.map Prod.fst = line.text.map Prod.fst

structure Tended (world : CardWorld) (id : RegionId) (owner : OwnerId) (line : Line) (region : Region) : Prop where
  region_eq : world.regions[id]? = some ⟨region, none⟩
  owned : region.owner = some owner
  lays : Lays region line
  sole : line.lead = [] → region.start = none

theorem Tended.update {id : RegionId} {region : Region} (tended : Tended world id owner line region)
    (stands : line.Stands world.document) (data : String) (settled : line.lead = [] ∨ data ≠ "") :
    ∃ text region', line.Shown world.document (world.updated id region [.text data]).document data text ∧
      Tended (world.updated id region [.text data]) id owner { line with text } region' := by
  have safe : region.start = none ∨ region.ending.isSome ∨ data ≠ "" := settled.imp tended.sole .inr
  obtain ⟨text, next, updated, shown⟩ := stands.update tended.lays data safe
  refine ⟨text, { region with current := nodes { line with text } }, ?_, ?_, tended.owned,
    ⟨tended.lays.parent_eq, rfl, tended.lays.bounded⟩, tended.sole⟩
  · rw [show (world.updated id region [.text data]).document = next from congrArg snd updated]
    exact shown
  · rw [regions_updated tended.region_eq]
    exact congrArg (fun region => some (Mounted.mk region none)) (congrArg fst updated)

theorem shown_mounted (stands : line.Stands world.document) {region : Region} (owned : region.owner = some owner)
    (lays : Lays region line) (sole : line.lead = [] → region.start = none) (data : String)
    (settled : line.lead = [] ∨ data ≠ "") (mounted : world' =
      (world.mounted region none).updated world.regions.size region [.text data]) :
    world'.host = world.host ∧ Beside world world' [] [] ∧ ∃ text region',
      line.Shown world.document world'.document data text ∧
        Tended world' world.regions.size owner { line with text } region' := by
  have tended : Tended (world.mounted region none) world.regions.size owner line region :=
    ⟨regions_mounted world region none, owned, lays, sole⟩
  rw [mounted]
  exact ⟨rfl, (beside_mounted world _ _).trans_new (beside_updated _ _ _ _), tended.update stands data settled⟩

theorem shown_adopted (stands : line.Stands world.document) {region : Region} (owned : region.owner = some owner) (claims : Claims claim line.nodes line.tail) (parent : region.parent = line.parent)
    (open_ : region.ending = none) (plain : region.before = none) (closed : line.tail = [] → region.start = none)
    (sole : line.lead = [] → region.start = none) (data : String) (adopted : world' =
      ((world.claiming claim).mounted region none).adopted world.regions.size region [.text data] claim) :
    world'.host = world.host ∧ Beside world world' [] [] ∧ ∃ text region',
      line.Shown world.document world'.document data text ∧
        Tended world' world.regions.size owner { line with text } region' ∧
        ((line.text = none ↔ data = "") → Kept world world' line text) := by
  obtain ⟨text, taken⟩ := stands.adopt region data claims parent open_ plain closed
  have found := regions_mounted (world.claiming claim) region none
  rw [adopted]
  refine ⟨rfl, (beside_claiming world _).trans ((beside_mounted _ _ _).trans_new (beside_adopted _ _ _ _ _)), text,
    (region.adopt (mergeItems [.text data]) claim true world.document).region, taken.shown,
    ⟨regions_adopted found region [.text data] claim, ?_, taken.lays, fun lead => ?_⟩, fun both => ?_⟩
  · rw [taken.region_eq]
    exact (endedBy_owner claim region).trans owned
  · rw [taken.region_eq]
    exact (endedBy_start claim region).trans (sole lead)
  · obtain ⟨matched, changes, same⟩ := taken.matched both
    exact ⟨changes, congrArg world.hydration.count matched, same⟩

theorem ensures_insert_item (labelled : Labelled world.document line "li" [] above) (lead : line.lead = [])
    (empty : world.isHydrating = false → line.text = none ∧ line.tail = []) (under : graph.owner = some owner)
    (alive : graph.ownerAlive owner = true) (item : String) :
    (insert line.parent (.ofDatum (.string item)) none : CardProgram Unit).Ensures (meaning host) level graph
      world fun _ graph' world' => graph' = graph ∧ ∃ text, line.Shown world.document world'.document item text ∧
        Beside world world' [] [] ∧ world'.host = world.host ∧
        (world.isHydrating = true → (line.text = none ↔ item = "") → Kept world world' line text) := by
  have text : Fixed host world.document (View.ofDatum (.string item)) [.text item] := fixed_text world.document item
  cases hydrating : world.isHydrating with
  | false =>
    obtain ⟨none, past⟩ := empty hydrating
    have lays : Lays { parent := line.parent, owner := some owner } line := ⟨rfl, by simp [Line.nodes, none], past⟩
    refine (ensures_insert_fixed text under alive hydrating line.parent).mono ?_
    rintro _ _ _ ⟨rfl, mounted⟩
    obtain ⟨host, beside, text, _, shown, _⟩ :=
      shown_mounted labelled.stands rfl lays (fun _ => rfl) item (.inl lead) mounted
    exact ⟨rfl, text, shown, beside, host, by simp⟩
  | true =>
    have claims : Claims (Claim.ofParent world.document line.parent) line.nodes line.tail := by
      have lists := labelled.stands.lists
      rw [lead] at lists
      exact claims_ofParent lists labelled.plain labelled.closes
    refine (ensures_insert_fixed_claiming text under alive hydrating line.parent).mono ?_
    rintro _ _ _ ⟨rfl, adopted⟩
    obtain ⟨host, beside, text, _, shown, _, matched⟩ :=
      shown_adopted labelled.stands rfl claims rfl rfl rfl (fun _ => rfl) (fun _ => rfl) item adopted
    exact ⟨rfl, text, shown, beside, host, fun _ => matched⟩

end Lines

section Items

variable {parts : Parts} {claimed rest loose : List Line} {line : Line} {owner : OwnerId}
variable {text : Option (NodeId × String)} {data : String}

theorem grown_item (shown : line.Shown doc next data text) :
    ∀ n ∈ Parts.nodes { parts with items := claimed ++ { line with text } :: rest } ++ loose.flatMap all,
      n ∈ Parts.nodes { parts with items := claimed ++ line :: rest } ++ loose.flatMap all ∨
        doc.nodes.size ≤ n := by
  intro n mem
  have grown := shown.grown (n := n)
  simp only [Parts.nodes, flatMap_append, flatMap_cons, mem_cons, mem_append] at mem ⊢
  grind

theorem Placed.show_item (placed : Placed world { parts with items := claimed ++ line :: rest } loose fixed)
    (shown : line.Shown world.document world'.document data text) (host : world'.host = world.host) :
    Placed world' { parts with items := claimed ++ { line with text } :: rest } loose fixed ∧
      ∀ m, fixed m → world'.document.node? m = world.document.node? m := by
  have labelled := (placed.standing.items line (by simp)).1
  have confined := shown.touched.confined
  have mem : ∀ n ∈ line.all, n ∈ Parts.nodes { parts with items := claimed ++ line :: rest } := by
    intro n here
    simp [Parts.nodes, here]
  have free : Standing.Loose world'.document loose := placed.free.frame fun n there => by
    obtain ⟨other, member, here⟩ := mem_flatMap.mp there
    refine confined.others n (placed.free.lt_size there) fun changed => ?_
    exact placed.standing.apart_loose (placed.free.labelled other member).1 (mem n (mem_all changed)) here
  exact placed.step confined (fun n changed => mem_append_left _ (mem n (mem_all changed))) host
    (placed.standing.withItem rfl shown) free (grown_item shown)

theorem ensures_buildItem_claimed {id : ClaimId} {frames : List Live.Frame}
    (placed : Placed world { parts with items := claimed ++ line :: rest } loose fixed)
    (framed : world.frames = .claiming id :: frames) (found : world.claims[id]? = some claim)
    (next : claim.next = some line.parent) (ending : claim.ending = parts.tail.head?)
    (under : graph.owner = some owner) (alive : graph.ownerAlive owner = true) (item : String) :
    (buildItem (.string item)).Ensures (meaning host) level graph world fun view graph' world' =>
      graph' = graph ∧ view = .node line.parent ∧ ∃ text,
        Placed world' { parts with items := claimed ++ { line with text } :: rest } loose fixed ∧
        Line.data { line with text } = item ∧ (∀ m, fixed m → world'.document.node? m = world.document.node? m) ∧
        Beside world world' [] [id] ∧ (world'.host.root .item).isSome ∧
        world'.claims[id]? = some { claim with next := (rest.map parent ++ parts.tail).head? } ∧
        ((world.host.root .item).isSome → (line.text = none ↔ item = "") →
          world'.document.changes = world.document.changes ∧
          world'.hydration = { world.hydration with claims := world.hydration.claims + 2 } ∧
          text.map fst = line.text.map fst) := by
  obtain ⟨_, reserved, apart⟩ := placed.kept
  refine (ensures_template .item reserved.toHosted).bind ?_
  rintro root _ ready ⟨rfl, at_hand, near, same, _, prepared⟩
  obtain ⟨here, unchanged⟩ := placed.prepare reserved prepared apart
  have labelled := (here.standing.items line (by simp)).1
  have once := here.standing.once
  have lists : ready.document.Lists parts.list
      (claimed.map parent ++ line.parent :: (rest.map parent ++ parts.tail)) := by
    simpa using here.standing.lists_items
  have inner : claim.ending ≠ some line.parent := by
    rw [ending]
    intro first
    have last : line.parent ∈ parts.tail := mem_of_mem_head? first
    exact (nodup_append.mp once).2.2 line.parent (by simp) line.parent last rfl
  have behind : ready.document.next? line.parent = (rest.map parent ++ parts.tail).head? := lists.next?
  have framed' : ready.frames = .claiming id :: frames := by rw [prepared.rest, ← framed]
  have found' : ready.claims[id]? = some claim := by rw [prepared.rest, ← found]
  refine (ensures_instantiate_claimed (tag?_of_shows (prepared.hosted.shows .item root at_hand)) framed' found' next inner
    (kind_of_node? labelled.self_eq) (Nat.lt_of_lt_of_le (by simp) here.standing.large)).bind ?_
  rintro _ _ _ ⟨rfl, rfl, rfl⟩
  have taken : Placed (advanced ready id { claim with next := ready.document.next? line.parent }) _ loose fixed :=
    here.congr rfl rfl
  have hydrating : (advanced ready id { claim with next := ready.document.next? line.parent }).isHydrating = true := by
    simp [World.isHydrating, advanced, framed']
  obtain ⟨labelled, lead⟩ := taken.standing.items line (by simp)
  refine (ensures_insert_item labelled lead (by simp [hydrating]) under alive item).bind ?_
  rintro _ _ _ ⟨rfl, text, shown, beside, host, matched⟩
  obtain ⟨after, still⟩ := taken.show_item shown host
  refine ensures_pure ⟨rfl, rfl, text, after, shown.data_eq, fun m fixed => (still m fixed).trans (unchanged m fixed),
    (near.mono.trans (beside_advanced ready id _)).trans beside.mono, ?_, ?_, fun parsed both => ?_⟩
  · rw [host]
    exact Option.isSome_iff_exists.mpr ⟨root, at_hand⟩
  · rw [← behind]
    exact beside.claims id (by simp) _ (by simp [advanced, Array.getElem?_modify, found'])
  · obtain ⟨changes, counts, node⟩ := matched hydrating both
    obtain rfl := same parsed
    exact ⟨changes, counts, node⟩

theorem Placed.add_item (placed : Placed world parts loose fixed)
    (extended : Extended world.document world'.document) (host : world'.host = world.host)
    (labelled : Labelled world'.document line "li" [] none) (lead : line.lead = [])
    (new : ∀ n ∈ line.all, world.document.nodes.size ≤ n) :
    Placed world' parts (loose ++ [line]) fixed ∧ ∀ m, fixed m → world'.document.node? m = world.document.node? m := by
  have small := placed.lt_size
  have same : ∀ n ∈ parts.nodes ++ loose.flatMap Line.all, world'.document.node? n = world.document.node? n :=
    fun n mem => extended.node?_eq n (small n mem)
  have old := placed.free.frame fun n mem => same n (mem_append_right _ mem)
  have free : Standing.Loose world'.document (loose ++ [line]) := by
    refine ⟨fun other member => ?_, ?_⟩
    · rcases mem_append.mp member with before | here
      · exact old.labelled other before
      · rw [mem_singleton.mp here]
        exact ⟨labelled, lead⟩
    · rw [map_append, nodup_append]
      refine ⟨old.once, by simp, ?_⟩
      rintro _ before _ here rfl
      obtain ⟨other, member, rfl⟩ := mem_map.mp before
      have bound := placed.free.lt_size (mem_flatMap.mpr ⟨other, member, by simp [Line.all]⟩ :
        other.parent ∈ loose.flatMap Line.all)
      rw [map_singleton, mem_singleton] at here
      exact absurd bound (not_lt.mpr (here ▸ new line.parent (by simp [Line.all])))
  have large := placed.standing.large.trans extended.size_le
  refine placed.step extended.confined (by simp) host
    (placed.standing.frame large fun n mem => same n (mem_append_left _ mem)) free ?_
  intro n mem
  rw [flatMap_append, ← append_assoc] at mem
  rcases mem_append.mp mem with before | here
  · exact .inl before
  · exact .inr (new n (by simpa using here))

theorem Placed.show_loose (placed : Placed world parts (loose ++ [line]) fixed)
    (shown : line.Shown world.document world'.document data text) (host : world'.host = world.host) :
    Placed world' parts (loose ++ [{ line with text }]) fixed ∧
      ∀ m, fixed m → world'.document.node? m = world.document.node? m := by
  obtain ⟨labelled, lead⟩ := placed.free.labelled line (by simp)
  have confined := shown.touched.confined
  have large := placed.standing.large.trans confined.size_le
  have standing : Standing world'.document parts := placed.standing.frame large fun n mem =>
    confined.others n (placed.standing.lt_size n mem) fun changed =>
      placed.standing.apart_loose labelled mem (mem_all changed)
  have free : Standing.Loose world'.document (loose ++ [{ line with text }]) := by
    refine ⟨fun other member => ?_, by simpa using placed.free.once⟩
    rcases mem_append.mp member with before | here
    · obtain ⟨otherLabelled, otherLead⟩ := placed.free.labelled other (by simp [before])
      have apart : other.parent ≠ line.parent := by
        have once := placed.free.once
        rw [map_append, nodup_append] at once
        exact once.2.2 _ (mem_map_of_mem before) _ (by simp)
      refine ⟨otherLabelled.frame fun n mem => ?_, otherLead⟩
      exact confined.others n (otherLabelled.lt_size n mem) fun changed =>
        otherLabelled.disjoint labelled apart mem (mem_all changed)
    · rw [mem_singleton.mp here]
      exact ⟨labelled.shown shown, lead⟩
  refine placed.step confined (fun n changed => ?_) host standing free fun n mem => ?_
  · have member := mem_all changed
    simp [member]
  · have grown := shown.grown (n := n)
    simp only [flatMap_append, flatMap_cons, flatMap_nil, append_nil, mem_append] at mem ⊢
    tauto

theorem ensures_buildItem_copied (placed : Placed world parts loose fixed)
    (past : ∀ id claim, world.frames.head? = some (.claiming id) → world.claims[id]? = some claim →
      claim.next = claim.ending)
    (under : graph.owner = some owner) (alive : graph.ownerAlive owner = true) (item : String) :
    (buildItem (.string item)).Ensures (meaning host) level graph world fun view graph' world' =>
      graph' = graph ∧ ∃ line, view = .node line.parent ∧ Placed world' parts (loose ++ [line]) fixed ∧
        line.data = item ∧ (∀ m, fixed m → world'.document.node? m = world.document.node? m) ∧
        Beside world world' [] [] ∧ (world'.host.root .item).isSome := by
  obtain ⟨_, reserved, apart⟩ := placed.kept
  refine (ensures_template .item reserved.toHosted).bind ?_
  rintro root _ ready ⟨rfl, at_hand, near, _, _, prepared⟩
  obtain ⟨here, unchanged⟩ := placed.prepare reserved prepared apart
  have frames_eq : ready.frames = world.frames := near.frames_eq
  have claims_eq : ready.claims = world.claims := by rw [prepared.rest]
  refine (ensures_instantiate_copy (prepared.hosted.shows .item root at_hand) prepared.hosted.small
    (by rwa [frames_eq, claims_eq])).bind ?_
  rintro _ _ copied ⟨rfl, extended, shows, rest⟩
  obtain ⟨line, rfl, lead, labelled, data, mem, tail⟩ := labelled_of_shows shows
  have none : line.text = none := labelled.stands.text_eq_none.mpr data
  obtain ⟨added, later⟩ := here.add_item extended (by rw [rest]) labelled lead fun n member => (mem n member).1
  refine (ensures_insert_item labelled lead (fun _ => ⟨none, tail rfl⟩) under alive item).bind ?_
  rintro _ _ _ ⟨rfl, text, shown, beside, host, _⟩
  obtain ⟨after, still⟩ := added.show_loose shown host
  have between : Beside ready copied [] [] := by
    rw [rest]
    exact { Beside.refl ready [] [] with }
  refine ensures_pure ⟨rfl, { line with text }, rfl, after, shown.data_eq, fun m fixed => ?_,
    (near.trans between).trans beside, ?_⟩
  · rw [still m fixed, later m fixed, unchanged m fixed]
  · rw [host, rest]
    exact Option.isSome_iff_exists.mpr ⟨root, at_hand⟩

end Items

section Loop

variable {start : CardWorld} {parts : Parts} {all items : List String} {claimed rest loose : List Line} {owner : OwnerId}
  {item : String}

def spending (world : CardWorld) : List ClaimId :=
  match world.frames.head? with
  | some (.claiming id) => [id]
  | _ => []

/-- How far the items of a list are built: `claimed` were taken from the list, where `rest` is left, and `loose` were made;
`items` are still to come. -/
structure Building (start world : CardWorld) (parts : Parts) (fixed : NodeId → Prop) (all items : List String)
    (claimed rest loose : List Line) : Prop where
  placed : Placed world { parts with items := claimed ++ rest } loose fixed
  parents : (claimed ++ rest).map Line.parent = parts.items.map Line.parent
  data_eq : (claimed ++ loose).map Line.data ++ items = all
  unchanged : ∀ m, fixed m → world.document.node? m = start.document.node? m
  beside : Beside start world [] (spending start)
  ready : items ≠ all → (world.host.root .item).isSome
  cursor : ∀ id, start.frames.head? = some (.claiming id) → (rest = [] ∨ loose = []) ∧ ∃ claim,
    world.claims[id]? = some claim ∧ Claims claim (parts.items.map Line.parent) parts.tail ∧
      claim.next = (rest.map Line.parent ++ parts.tail).head?
  matched : start.isHydrating = true → ((start.host.root .item).isSome ∨ all = []) → parts.items.map Line.data = all →
    loose = [] ∧ claimed ++ rest = parts.items ∧ world.document.changes = start.document.changes ∧
      world.hydration = { start.hydration with claims := start.hydration.claims + 2 * claimed.length }

theorem exists_claiming (hydrating : world.isHydrating = true) : ∃ id, world.frames.head? = some (.claiming id) := by
  unfold World.isHydrating at hydrating
  split at hydrating
  · rename_i id frames framed
    exact ⟨id, by rw [framed]; rfl⟩
  · cases hydrating

theorem text_eq_of_kept {line : Line} {text : Option (NodeId × String)}
    (node : text.map Prod.fst = line.text.map Prod.fst) (data : Line.data { line with text } = line.data) :
    text = line.text := by
  cases line with
  | mk _ _ old => cases text <;> cases old <;> simp_all [Line.data, Prod.ext_iff]

theorem Building.take {line : Line} {id : ClaimId}
    (building : Building start world parts fixed all (item :: items) claimed (line :: rest) [])
    (claiming : start.frames.head? = some (.claiming id)) (under : graph.owner = some owner)
    (alive : graph.ownerAlive owner = true) :
    (buildItem (.string item)).Ensures (meaning host) level graph world fun view graph' world' =>
      graph' = graph ∧ view = .node line.parent ∧ ∃ text,
        Building start world' parts fixed all items (claimed ++ [{ line with text }]) rest [] := by
  obtain ⟨_, _, found, claims, next⟩ := building.cursor id claiming
  obtain ⟨frames, framed⟩ : ∃ frames, world.frames = .claiming id :: frames := by
    rw [building.beside.frames_eq]
    exact head?_eq_some_iff.mp claiming
  refine (ensures_buildItem_claimed building.placed framed found next claims.ending_eq under alive item).mono ?_
  rintro _ _ _ ⟨rfl, rfl, text, placed, data, still, beside, ready, advanced, same⟩
  have spent : spending start = [id] := by rw [spending, claiming]
  refine ⟨rfl, rfl, text, by simpa using placed, ?_, ?_, fun m fixed => (still m fixed).trans (building.unchanged m fixed),
    building.beside.trans (spent ▸ beside), fun _ => ready, fun other again => ?_, fun hydrating parsed whole => ?_⟩
  · simpa using building.parents
  · simpa [data] using building.data_eq
  · obtain rfl : id = other := by simpa [claiming] using again
    exact ⟨.inr rfl, _, advanced, ⟨claims.first_eq, claims.ending_eq⟩, rfl⟩
  · obtain ⟨_, lines, changes, counts⟩ := building.matched hydrating parsed whole
    have item_eq : line.data = item := by
      have both := building.data_eq
      rw [← whole, ← lines] at both
      have heads : item = line.data ∧ items = rest.map Line.data := by simpa using both
      exact heads.1.symm
    have ready : (world.host.root .item).isSome := by
      rcases parsed with some | none
      · obtain ⟨root, root_eq⟩ := Option.isSome_iff_exists.mp some
        simp [building.beside.templates .item root root_eq]
      · exact absurd building.data_eq (by simp [none])
    have stands := (building.placed.standing.items line (by simp)).1.stands
    obtain ⟨changes', counts', node⟩ := same ready (item_eq ▸ stands.text_eq_none)
    obtain rfl := text_eq_of_kept node (data.trans item_eq.symm)
    refine ⟨rfl, by simpa using lines, changes'.trans changes, ?_⟩
    rw [counts', counts, length_append, length_singleton, Nat.mul_add, ← Nat.add_assoc]

theorem Building.make (building : Building start world parts fixed all (item :: items) claimed rest loose)
    (past : ∀ id, start.frames.head? = some (.claiming id) → rest = []) (under : graph.owner = some owner)
    (alive : graph.ownerAlive owner = true) :
    (buildItem (.string item)).Ensures (meaning host) level graph world fun view graph' world' =>
      graph' = graph ∧ ∃ line, view = .node line.parent ∧
        Building start world' parts fixed all items claimed rest (loose ++ [line]) := by
  refine (ensures_buildItem_copied building.placed ?_ under alive item).mono ?_
  · intro id claim claiming found
    rw [building.beside.frames_eq] at claiming
    obtain ⟨_, claim', found', claims, next⟩ := building.cursor id claiming
    obtain rfl : claim' = claim := by simpa [found'] using found
    rw [next, past id claiming, claims.ending_eq]
    rfl
  rintro _ _ _ ⟨rfl, line, rfl, placed, data, still, beside, ready⟩
  refine ⟨rfl, line, rfl, placed, building.parents, ?_, fun m fixed => (still m fixed).trans (building.unchanged m fixed),
    building.beside.trans beside.mono, fun _ => ready, fun id claiming => ?_, fun hydrating parsed whole => ?_⟩
  · simpa [data] using building.data_eq
  · obtain ⟨_, claim, found, covers, next⟩ := building.cursor id claiming
    exact ⟨.inl (past id claiming), claim, beside.claims id (by simp) claim found, covers, next⟩
  · -- all items of the list would have been taken, so none can be left to make
    obtain ⟨none, lines, _, _⟩ := building.matched hydrating parsed whole
    obtain ⟨id, claiming⟩ := exists_claiming hydrating
    have both := building.data_eq
    rw [none, ← whole, ← lines, past id claiming] at both
    simp at both

theorem ensures_buildItems (building : Building start world parts fixed items items [] parts.items [])
    (under : graph.owner = some owner) (alive : graph.ownerAlive owner = true) :
    ((items.map Datum.string).mapM buildItem).Ensures (meaning host) level graph world
      fun views graph' world' => graph' = graph ∧ ∃ claimed rest loose,
        views = ((claimed ++ loose).map parent).map .node ∧
        Building start world' parts fixed items [] claimed rest loose := by
  let stage (data : List Datum) (views : List (View Code)) (world : CardWorld) : Prop :=
    ∃ claimed rest loose left, data = left.map Datum.string ∧ views = ((claimed ++ loose).map parent).map .node ∧
      Building start world parts fixed items left claimed rest loose
  have each : ∀ datum data views world, stage (datum :: data) views world →
      (buildItem datum).Ensures (meaning host) level graph world fun view graph' world' =>
        graph' = graph ∧ stage data (views ++ [view]) world' := by
    rintro datum data _ _ ⟨claimed, rest, loose, left, split, rfl, building⟩
    cases left with
    | nil => cases split
    | cons item left =>
      obtain ⟨rfl, rfl⟩ : datum = .string item ∧ data = left.map .string := by simpa using split
      by_cases claiming : ∃ id, start.frames.head? = some (.claiming id) ∧ rest ≠ []
      · obtain ⟨id, claiming, some⟩ := claiming
        obtain ⟨_, rest, rfl⟩ := exists_cons_of_ne_nil some
        obtain rfl : loose = [] := (building.cursor id claiming).1.resolve_left some
        refine (building.take claiming under alive).mono ?_
        rintro _ _ _ ⟨rfl, rfl, _, built⟩
        exact ⟨rfl, _, rest, [], left, rfl, by simp, built⟩
      · refine (building.make (fun id here => by_contra fun some => claiming ⟨id, here, some⟩) under alive).mono ?_
        rintro _ _ _ ⟨rfl, line, rfl, built⟩
        exact ⟨rfl, claimed, rest, loose ++ [line], left, rfl, by simp, built⟩
  refine (ensures_mapM each ⟨[], parts.items, [], items, rfl, rfl, building⟩).mono ?_
  rintro _ _ _ ⟨rfl, claimed, rest, loose, left, none, shown, built⟩
  obtain rfl : left = [] := by simpa [eq_comm] using none
  exact ⟨rfl, claimed, rest, loose, shown, built⟩

end Loop

section Lists

variable {parts : Parts} {items : List String} {root owner : OwnerId} {cell : CellId} {id : RegionId} {region : Region}

structure Enlists (region : Region) (parts : Parts) : Prop where
  parent_eq : region.parent = parts.list
  current_eq : region.current = parts.items.map Line.parent
  bounded : Bounded region [] parts.tail
  fixed : region.start = none

theorem ensures_items_list (attends : Attends graph root owner cell (itemsDatum items))
    (building : Building world world parts fixed items items [] parts.items []) :
    (View.items (.dynamic (.code (.items cell))) : CardProgram _).Ensures (meaning host) 1 graph world
      fun shown graph' world' => graph' = graph.track cell ∧ ∃ claimed rest loose,
        shown = ((claimed ++ loose).map parent).map .node ∧
        Building world world' parts fixed items [] claimed rest loose := by
  have view : (meaning host (.view (.code (.items cell)))).Ensures (meaning host) 0 graph world
      fun view graph' world' => graph' = graph.track cell ∧ ∃ claimed rest loose,
        view = .list (((claimed ++ loose).map parent).map .node) ∧
        Building world world' parts fixed items [] claimed rest loose := by
    refine (ensures_get attends).bind ?_
    rintro _ _ _ ⟨rfl, rfl, rfl⟩
    refine (ensures_buildItems building attends.track.owner_eq attends.track.self_alive).bind ?_
    rintro _ _ _ ⟨rfl, claimed, rest, loose, rfl, built⟩
    exact ensures_pure ⟨rfl, claimed, rest, loose, rfl, built⟩
  refine (ensures_call view).bind ?_
  rintro _ _ _ ⟨rfl, claimed, rest, loose, rfl, built⟩
  have solid := (Standing.fitting_items built.placed.standing rfl built.placed.free).solid
  refine (ensures_call (ensures_items_nodes solid)).mono ?_
  rintro _ _ _ ⟨rfl, rfl, rfl⟩
  exact ⟨rfl, claimed, rest, loose, rfl, built⟩

section

variable {start before after : CardWorld} {all left : List String} {claimed rest loose : List Line}

theorem Building.lists (building : Building start before parts fixed all left claimed rest loose) :
    before.document.Lists parts.list ([] ++ (parts.items.map parent ++ parts.tail)) := by
  rw [← building.parents]
  exact building.placed.standing.lists_items

theorem Building.fitting (building : Building start before parts fixed all left claimed rest loose) :
    Fitting before.document parts.list [] ((claimed ++ loose).map parent) parts.tail := by
  have fitting := Standing.fitting_items building.placed.standing rfl building.placed.free
  exact fitting

theorem Building.fill (building : Building start before parts fixed all left claimed rest loose)
    (refilled : Refilled before.document after.document parts.list [] (parts.items.map parent)
      ((claimed ++ loose).map parent) parts.tail) (host : after.host = before.host) :
    Placed after { parts with items := claimed ++ loose } [] fixed ∧
      ∀ m, fixed m → after.document.node? m = before.document.node? m := by
  have refilled' : Refilled before.document after.document parts.list [] ((claimed ++ rest).map parent)
      ((claimed ++ loose).map parent) parts.tail := by
    rw [building.parents]
    exact refilled
  have standing := Standing.withItems building.placed.standing rfl building.placed.free refilled'
  have parents : ∀ lines : List Line, ∀ n ∈ lines.map parent, n ∈ lines.flatMap Line.all := by
    intro lines n mem
    obtain ⟨line, member, rfl⟩ := mem_map.mp mem
    exact mem_flatMap.mpr ⟨line, member, by simp [Line.all]⟩
  refine building.placed.step refilled'.confined (fun n changed => ?_) host standing ⟨by simp, by simp⟩ fun n mem => .inl ?_
  · have old := parents (claimed ++ rest) n
    have new := parents (claimed ++ loose) n
    simp only [Parts.nodes, mem_cons, mem_append, flatMap_append, map_append] at changed old new ⊢
    grind
  · simp only [Parts.nodes, mem_cons, mem_append, flatMap_append, flatMap_nil, not_mem_nil,
      or_false] at mem ⊢
    grind

end

structure Listed (world world' : CardWorld) (parts : Parts) (fixed : NodeId → Prop) (id : RegionId) (root : OwnerId)
    (spent : List ClaimId) (items : List String) (lines : List Line) (region : Region) : Prop where
  placed : Placed world' { parts with items := lines } [] fixed
  data_eq : lines.map Line.data = items
  region_eq : world'.regions[id]? = some ⟨region, none⟩
  owned : region.owner = some root
  enlists : Enlists region { parts with items := lines }
  unchanged : ∀ m, fixed m → world'.document.node? m = world.document.node? m
  beside : Beside world world' [id] spent
  ready : items ≠ [] → (world'.host.root .item).isSome

theorem answers_refresh_items (placed : Placed world parts [] fixed) (found : world.regions[id]? = some ⟨region, none⟩)
    (owned : region.owner = some root) (enlists : Enlists region parts) :
    Answers (meaning host) 1 root owner cell (itemsDatum items) (.refresh id (.dynamic (.code (.items cell)))) world
      fun world' => ∃ lines region', Listed world world' parts fixed id root [] items lines region' := by
  intro graph attends
  have building : Building { world with frames := .fresh :: world.frames } { world with frames := .fresh :: world.frames }
      parts fixed items items [] parts.items [] :=
    ⟨placed.congr rfl rfl, rfl, rfl, fun _ _ => rfl, .refl _ _ _, by simp, by simp, by simp [World.isHydrating]⟩
  refine (ensures_refresh (fun shown graph' before => graph' = graph.track cell ∧ Beside world before [] [] ∧
      ∃ final claimed rest loose, before = { final with frames := final.frames.drop 1 } ∧
        shown = ((claimed ++ loose).map parent).map .node ∧
        Building { world with frames := .fresh :: world.frames } final parts fixed items [] claimed rest loose)
    found owned ((ensures_items_list attends building).mono ?_)).mono ?_
  · rintro _ _ final ⟨rfl, claimed, rest, loose, rfl, built⟩
    exact ⟨attends.track.root_alive, built.beside.regions id (by simp) _ found, rfl, built.beside.inFrame, final, claimed, rest,
      loose, rfl, rfl, built⟩
  · rintro _ _ _ ⟨_, _, ⟨rfl, near, final, claimed, _, loose, rfl, rfl, built⟩, rfl⟩
    have lists : final.document.Lists region.parent ([] ++ (region.current ++ parts.tail)) := by
      rw [enlists.parent_eq, enlists.current_eq]
      exact built.lists
    have fitting : Fitting final.document region.parent [] ((claimed ++ loose).map parent) parts.tail := by
      rw [enlists.parent_eq]
      exact built.fitting
    obtain ⟨next, updated, refilled⟩ := refilled_update lists enlists.bounded enlists.fixed fitting
    rw [enlists.parent_eq, enlists.current_eq] at refilled
    let before : CardWorld := { final with frames := final.frames.drop 1 }
    let shown : List Item := ((claimed ++ loose).map parent).map .node
    have refilled' : Refilled final.document (before.updated id region shown).document parts.list []
        (parts.items.map parent) ((claimed ++ loose).map parent) parts.tail := by
      rw [show (before.updated id region shown).document = next from congrArg snd updated]
      exact refilled
    obtain ⟨filled, still⟩ := built.fill refilled' rfl
    refine ⟨rfl, claimed ++ loose, { region with current := (claimed ++ loose).map parent }, filled,
      by simpa using built.data_eq, ?_, owned, { enlists with current_eq := rfl },
      fun m fixed => (still m fixed).trans (built.unchanged m fixed), near.mono.trans (beside_updated before id region shown),
      fun some => built.ready some.symm⟩
    rw [World.regions_updated (near.regions id (by simp) _ found) region shown]
    exact congrArg (fun pair => some (Mounted.mk pair none)) (congrArg fst updated)

theorem answers_refresh_items_claiming {claim : ClaimId} {taken : Claim} (placed : Placed world parts [] fixed)
    (found : world.regions[id]? = some ⟨region, some claim⟩) (owned : region.owner = some root)
    (parent : region.parent = parts.list) (open_ : region.ending = none) (plain : region.before = none)
    (sole : region.start = none) (known : world.claims[claim]? = some taken)
    (claims : Claims taken (parts.items.map Line.parent) parts.tail) (next : taken.next = taken.first) :
    Answers (meaning host) 1 root owner cell (itemsDatum items) (.refresh id (.dynamic (.code (.items cell)))) world
      fun world' => ∃ lines region', Listed world world' parts fixed id root [claim] items lines region' ∧
        (((world.host.root .item).isSome ∨ items = []) → parts.items.map Line.data = items →
          lines = parts.items ∧ world'.document.changes = world.document.changes ∧
          world'.hydration = { world.hydration with claims := world.hydration.claims + 2 * items.length + 1 }) := by
  intro graph attends
  let start : CardWorld := { world.taken id with frames := .claiming claim :: world.frames }
  have spent : spending start = [claim] := rfl
  have building : Building start start parts fixed items items [] parts.items [] := by
    refine ⟨placed.congr rfl rfl, rfl, rfl, fun _ _ => rfl, .refl _ _ _, by simp, fun other here => ?_, fun _ _ _ => ⟨rfl, rfl, rfl, rfl⟩⟩
    obtain rfl : claim = other := by simpa [start] using here
    exact ⟨.inr rfl, taken, known, claims, next.trans claims.first_eq⟩
  refine (ensures_refresh_claiming (fun shown covered graph' before => graph' = graph.track cell ∧
      Beside (world.taken id) before [] [claim] ∧ Claims covered (parts.items.map Line.parent) parts.tail ∧
      ∃ final claimed rest loose, before = { final with frames := final.frames.drop 1 } ∧
        shown = ((claimed ++ loose).map Line.parent).map .node ∧
        Building start final parts fixed items [] claimed rest loose)
    found owned ((ensures_items_list attends building).mono ?_)).mono ?_
  · rintro _ _ final ⟨rfl, claimed, rest, loose, rfl, built⟩
    obtain ⟨_, covered, there, covers, _⟩ := built.cursor claim rfl
    have near := built.beside
    rw [spent] at near
    exact ⟨attends.track.root_alive, near.regions id (by simp) _ (regions_taken found), covered, there, rfl,
      near.inFrame, covers, final, claimed, rest, loose, rfl, rfl, built⟩
  · rintro _ _ _ ⟨_, covered, _, ⟨rfl, near, covers, final, claimed, rest, loose, rfl, rfl, built⟩, rfl⟩
    have lists : final.document.Lists region.parent ([] ++ (parts.items.map Line.parent ++ parts.tail)) := by
      rw [parent]
      exact built.lists
    have fitting : Fitting final.document region.parent [] ((claimed ++ loose).map Line.parent) parts.tail := by
      rw [parent]
      exact built.fitting
    obtain ⟨region_eq, refilled, matched⟩ := refilled_adopt lists covers open_ plain sole fitting
    rw [parent] at refilled
    let before : CardWorld := { final with frames := final.frames.drop 1 }
    let shown : List Item := ((claimed ++ loose).map Line.parent).map .node
    have refilled' : Refilled final.document (before.adopted id region shown covered).document parts.list []
        (parts.items.map Line.parent) ((claimed ++ loose).map Line.parent) parts.tail := refilled
    obtain ⟨filled, still⟩ := built.fill refilled' rfl
    refine ⟨rfl, claimed ++ loose, { endedBy covered region with current := (claimed ++ loose).map Line.parent },
      ⟨filled, by simpa using built.data_eq, ?_, (endedBy_owner covered region).trans owned,
        ⟨(endedBy_parent covered region).trans parent, rfl, bounded_endedBy covers open_ plain (fun _ => sole) _,
          (endedBy_start covered region).trans sole⟩,
        fun m fixed => (still m fixed).trans (built.unchanged m fixed),
        ((beside_taken world id).trans near.mono).trans (beside_adopted before id region shown covered),
        fun some => built.ready some.symm⟩,
      fun parsed whole => ?_⟩
    · rw [regions_adopted (near.regions id (by simp) _ (regions_taken found)) region shown covered]
      exact congrArg (fun region => some (Mounted.mk region none)) region_eq
    · obtain ⟨rfl, lines, changes, counts⟩ := built.matched rfl parsed whole
      have past : rest = [] := by
        have both := built.data_eq
        rw [← whole, ← lines] at both
        simpa using both
      rw [past, append_nil] at lines
      obtain ⟨all, same⟩ := matched (by rw [append_nil, lines])
      have length : claimed.length = items.length := by rw [lines, ← whole, length_map]
      refine ⟨by rw [append_nil, lines], (congrArg Document.changes same).trans changes, ?_⟩
      show final.hydration.count _ = _
      rw [all, counts, length]
      rfl

end Lists

end LiveMarkup.Card
