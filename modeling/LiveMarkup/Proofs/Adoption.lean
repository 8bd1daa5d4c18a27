import LiveMarkup.Proofs.RegionUpdates

/-!
First showings over nodes that are there already. The nodes between what stands before and behind them are taken as they are
when they are those of the items, text for text. Otherwise those that are not among the items go, and the others stay or come
to stand where the items are.
-/

namespace LiveMarkup.Live
open Document Reactive List Region

variable {η π γ τ : Type}

section Filling

variable {doc : Document η π} {items : List Item} {nodes : List NodeId}

/-- A node can be taken for an item: it is the given node, or a text for a text. -/
def TakenFor (doc : Document η π) : Item → NodeId → Prop
  | .node n, m => n = m
  | .text _, m => doc.isText m = true

theorem fits_iff (doc : Document η π) (items : List Item) (nodes : List NodeId) :
    (items.length = nodes.length ∧ (items.zip nodes).all (Region.Item.fits doc) = true) ↔
      Forall₂ (TakenFor doc) items nodes := by
  have fits (item : Item) (n : NodeId) : Region.Item.fits doc (item, n) = true ↔ TakenFor doc item n := by
    cases item <;> simp [Region.Item.fits, TakenFor]
  rw [forall₂_iff_zip, all_eq_true]
  refine and_congr_right fun _ => ⟨fun all item n mem => (fits item n).mp (all _ mem), fun all pair mem => ?_⟩
  exact (fits pair.1 pair.2).mpr (all mem)

theorem fillTexts_cons (item : Item) (n : NodeId) (pairs : List (Item × NodeId)) (doc : Document η π) :
    fillTexts ((item, n) :: pairs) doc =
      fillTexts pairs (match item with
        | .text data => doc.setData n data
        | .node _ => doc) := rfl

theorem size_fillTexts (pairs : List (Item × NodeId)) (doc : Document η π) :
    (fillTexts pairs doc).nodes.size = doc.nodes.size ∧ (fillTexts pairs doc).changes = doc.changes := by
  induction pairs generalizing doc with
  | nil => exact ⟨rfl, rfl⟩
  | cons pair _ ih =>
    obtain ⟨item, n⟩ := pair
    obtain ⟨size, changes⟩ := ih (match item with
      | .text data => doc.setData n data
      | .node _ => doc)
    rw [fillTexts_cons, size, changes]
    cases item with
    | node => exact ⟨rfl, rfl⟩
    | text => exact ⟨Array.size_modify, rfl⟩

theorem patched_fillTexts (taken : Forall₂ (TakenFor doc) items nodes) (once : nodes.Nodup) :
    Patched doc (fillTexts (items.zip nodes) doc) nodes ∧
      Forall₂ (ShowsItem (fillTexts (items.zip nodes) doc)) items nodes := by
  induction items generalizing doc nodes with
  | nil =>
    obtain rfl := forall₂_nil_left_iff.mp taken
    exact ⟨.refl doc [], .nil⟩
  | cons item items ih =>
    obtain ⟨n, rest, first, others, rfl⟩ := forall₂_cons_left_iff.mp taken
    obtain ⟨fresh, once⟩ := nodup_cons.mp once
    rw [zip_cons_cons, fillTexts_cons]
    cases item with
    | node =>
      obtain ⟨patched, shows⟩ := ih others once
      exact ⟨patched.widen (subset_cons_self n rest), .cons first.symm shows⟩
    | text data =>
      have kind : doc.kind n = .text := by simpa [TakenFor, isText] using first
      have bound : n < doc.nodes.size := present_of_kind (by simp [kind])
      have patch := patched_setData doc n data
      have same : (doc.setData n data).data n = data := by
        obtain ⟨node, found⟩ : ∃ node, doc.node? n = some node := by simp [node?, bound]
        simp [Document.data, setData, found]
      have still : Forall₂ (TakenFor (doc.setData n data)) items rest := by
        refine others.imp fun item m taken => ?_
        cases item with
        | node => exact taken
        | text =>
          have text : doc.kind m = .text := by simpa [TakenFor, isText] using taken
          simp [TakenFor, isText, patch.kind_eq m (present_of_kind (by simp [text])), text]
      obtain ⟨patched, shows⟩ := ih still once
      have here : ShowsItem (doc.setData n data) (.text data) n := ⟨(patch.kind_eq n bound).trans kind, same⟩
      exact ⟨(patch.widen (by simp)).trans patched (subset_cons_self n rest),
        .cons (here.kept patched.toRetains fresh) shows⟩

end Filling

section Anew

variable {doc : Document η π} {region : Region} {claim : Claim} {items : List Item} {left kept given right : List NodeId}

/-- A region that is made together with a claim: when the claim runs to the last child, the region ends there as well. -/
def MadeFor (region : Region) (claim : Claim) : Prop :=
  claim.ending = none → region.start = none ∧ region.before = none ∧ region.ending = none

theorem MadeFor.settled (made : MadeFor region claim) :
    ((endedBy claim region).start.isNone || (endedBy claim region).ending.isSome) = true := by
  unfold endedBy
  split
  · rename_i ends
    simp [ends]
  · rename_i open_
    obtain ⟨start, -, -⟩ := made (by simpa using open_)
    simp [start]

theorem MadeFor.mark_eq (made : MadeFor region claim) (current : List NodeId) (doc : Document η π) :
    mark { endedBy claim region with current } doc = claim.ending := by
  unfold endedBy
  split
  · rename_i ends
    obtain ⟨_, found⟩ := Option.isSome_iff_exists.mp ends
    simp [mark, found]
  · rename_i open_
    have none : claim.ending = none := by simpa using open_
    obtain ⟨start, before, ending⟩ := made none
    simp [mark, start, before, ending, none]

theorem MadeFor.update_eq (made : MadeFor region claim) (items : List Item) (doc : Document η π) :
    Region.update { endedBy claim region with current := [] } items doc =
      ({ endedBy claim region with current := (Region.nodesFor [] items doc).1 },
        insertAll (Region.nodesFor [] items doc).2 region.parent (Region.nodesFor [] items doc).1 claim.ending) := by
  have still (doc : Document η π) : Region.ensureEnding { endedBy claim region with current := [] } doc =
      ({ endedBy claim region with current := [] }, doc) := if_pos made.settled
  have replaced (nodes : List NodeId) (doc : Document η π) : Region.replace { endedBy claim region with current := [] } nodes doc =
      ({ endedBy claim region with current := nodes }, insertAll doc region.parent nodes claim.ending) := by
    rw [Region.replace, made.mark_eq, ← endedBy_parent claim region]
    rfl
  rcases items with _ | ⟨first, _ | ⟨second, rest⟩⟩
  · simp only [Region.update, still]
    rfl
  · cases first with
    | node =>
      simp only [Region.update, nil_eq, cons_ne_nil, if_false, replaced]
      rfl
    | text =>
      simp only [Region.update, replaced]
      rfl
  · rw [update_several (by simp), still]
    dsimp only
    rw [if_pos (by simp), replaced]

/-- What has become of the siblings `given`: nodes that show the items stand in their place, and those that are not among
these stand nowhere. All other nodes keep their kinds and characters. -/
structure TakenOver (doc next : Document η π) (parent : NodeId) (left given right : List NodeId) (items : List Item)
    (current : List NodeId) : Prop where
  lists : next.Lists parent (left ++ (current ++ right))
  shows : Forall₂ (ShowsItem next) items current
  kept : Retains doc next given
  gone : ∀ n ∈ given, n ∉ current → next.parent? n = none

theorem contains_iff (items : List Item) (n : NodeId) : items.contains (.node n) = true ↔ n ∈ itemNodes items := by
  induction items with
  | nil => simp [itemNodes]
  | cons item _ ih =>
    cases item with
    | node m => simp [contains_cons, ih, show (Item.node n == .node m) = (n == m) from rfl]
    | text data => simp [contains_cons, ih, show (Item.node n == .text data) = false from rfl]

theorem MadeFor.shown_anew (made : MadeFor region claim) (ends : claim.ending = right.head?)
    (lists : doc.Lists region.parent (left ++ (given ++ right))) (once : (itemNodes items).Nodup) (fit : Given doc items)
    (inner : ∀ n ∈ itemNodes items, n ∉ left ∧ n ∉ right) :
    let cleared := doc.removeAll (given.filter fun n => !items.contains (.node n))
    let shown := update { endedBy claim region with current := [] } items cleared
    shown.1 = { endedBy claim region with current := shown.1.current } ∧
      TakenOver doc shown.2 region.parent left given right items shown.1.current ∧
      ∀ n ∈ given, n ∉ itemNodes items → shown.2.parent? n = none := by
  have gone_iff (n : NodeId) : n ∈ (given.filter fun n => !items.contains (.node n)) ↔ n ∈ given ∧ n ∉ itemNodes items := by
    rw [mem_filter, Bool.not_eq_true', ← Bool.not_eq_true, contains_iff]
  generalize (given.filter fun n => !items.contains (.node n)) = goes at gone_iff
  intro cleared shown
  have removed : Refilled doc cleared region.parent left goes (given.filter (· ∉ goes)) right :=
    refilled_removeAll lists fun n mem => ((gone_iff n).mp mem).1
  have fit' : Given cleared items := fun n mem => by
    rw [show cleared.kind n = doc.kind n from kind_removeAll doc goes n]
    exact fit n mem
  have prepared := readied_nodesFor fit' once nodup_nil nofun
  have shown_eq : shown = ({ endedBy claim region with current := (nodesFor [] items cleared).1 },
      insertAll (nodesFor [] items cleared).2 region.parent (nodesFor [] items cleared).1 claim.ending) :=
    made.update_eq items cleared
  generalize nodesFor [] items cleared = pair at shown_eq prepared
  obtain ⟨nodes, ready⟩ := pair
  rw [shown_eq, ends]
  have small := lt_size_of_lists removed.lists
  have task : Replacement ready region.parent left (given.filter (· ∉ goes)) nodes right := by
    refine ⟨by simpa using prepared.patched.lists removed.lists, prepared.once, fun n mem => ?_, fun n mem => ?_⟩
    · rcases prepared.origin n mem with asked | ⟨text, -⟩
      · simpa [isFragment] using (fit'.patched prepared.patched n asked).2
      · simp [isFragment, text]
    · rcases prepared.origin n mem with asked | ⟨-, old | new⟩
      · exact inner n asked
      · cases old
      · exact ⟨fun before => lt_irrefl n ((small n (by simp [before])).trans_le new),
          fun behind => lt_irrefl n ((small n (by simp [behind])).trans_le new)⟩
  -- the siblings that stayed are among the nodes that are put before the end
  have stayed : (given.filter (· ∉ goes)).filter (· ∉ nodes) = [] := by
    refine filter_eq_nil_iff.mpr fun n mem => ?_
    obtain ⟨member, stays⟩ := mem_filter.mp mem
    have asked : n ∈ itemNodes items := by
      by_contra absent
      simp [(gone_iff n).mpr ⟨member, absent⟩] at stays
    simpa using mem_of_itemNodes prepared.shows asked
  have inserted := lists_insertAll task
  rw [stayed, nil_append] at inserted
  have moved : Rearranged ready (insertAll ready region.parent nodes right.head?) := rearranged_insertAll ready region.parent nodes _
  have detached (n : NodeId) (member : n ∈ given) (absent : n ∉ itemNodes items) :
      (insertAll ready region.parent nodes right.head?).parent? n = none := by
    have old : n < cleared.nodes.size := by
      rw [removed.rearranged.size_eq]
      exact lt_size_of_lists lists n (by simp [member])
    have strange : n ∉ nodes := fun mem => by
      rcases prepared.origin n mem with asked | ⟨-, other | new⟩
      · exact absent asked
      · cases other
      · exact lt_irrefl n (old.trans_le new)
    rw [parent?_insertAll task.solid region.parent _ strange, prepared.patched.parent?_eq]
    exact (parent?_removeAll goes n).trans (if_pos ((gone_iff n).mpr ⟨member, absent⟩))
  refine ⟨rfl, ⟨by simpa using inserted, ?_, ?_, fun n member absent => ?_⟩, detached⟩
  · exact prepared.shows.imp fun item n shows => shows.kept (retains_of_rearranged moved []) (by simp)
  · exact ((retains_of_rearranged removed.rearranged given).trans prepared.patched.toRetains (by simp)).trans
      (retains_of_rearranged moved []) (by simp)
  · exact detached n member fun asked => absent (mem_of_itemNodes prepared.shows asked)

end Anew

section Adopting

variable {doc : Document η π} {region : Region} {claim : Claim} {items : List Item} {left given right : List NodeId}

theorem adopt_of_taken (lists : doc.Lists region.parent (left ++ (given ++ right))) (claims : Claims claim given right)
    (taken : Forall₂ (TakenFor doc) items given) :
    let adoption := region.adopt items claim true doc
    adoption.matched = true ∧ adoption.region = { endedBy claim region with current := given } ∧
      adoption.document.changes = doc.changes ∧ adoption.document.nodes.size = doc.nodes.size ∧
      TakenOver doc adoption.document region.parent left given right items given := by
  have once : given.Nodup := (nodup_append.mp (nodup_append.mp lists.once).2.1).1
  obtain ⟨patched, shows⟩ := patched_fillTexts taken once
  obtain ⟨size, changes⟩ := size_fillTexts (items.zip given) doc
  rw [adopt_eq, claim_nodes lists claims, if_pos ((fits_iff doc items given).mpr taken)]
  exact ⟨rfl, rfl, changes, size, patched.lists lists, shows, patched.toRetains, fun n mem absent => absurd mem absent⟩

theorem adopt_of_not_taken (lists : doc.Lists region.parent (left ++ (given ++ right))) (claims : Claims claim given right)
    (made : MadeFor region claim) (once : (itemNodes items).Nodup) (fit : Given doc items)
    (inner : ∀ n ∈ itemNodes items, n ∉ left ∧ n ∉ right) (other : ¬ Forall₂ (TakenFor doc) items given) :
    let adoption := region.adopt items claim true doc
    adoption.matched = false ∧ (∀ n ∈ given, n ∉ itemNodes items → adoption.document.parent? n = none) ∧
      TakenOver doc adoption.document region.parent left given right items adoption.region.current := by
  obtain ⟨-, held, gone⟩ := made.shown_anew claims.ending_eq lists once fit inner
  rw [adopt_eq, claim_nodes lists claims, if_neg (mt (fits_iff doc items given).mp other)]
  exact ⟨rfl, gone, held⟩

end Adopting

section Programs

variable {state : State (Procedure γ) (World γ τ) Datum} {id : RegionId} {claimId : ClaimId} {mounted : Mounted} {claim : Claim}
  {items : List Item} {left given right : List NodeId}

def World.adopting (world : World γ τ) (id : RegionId) (adoption : Region.Adoption γ Property) : World γ τ :=
  { world with
    document := adoption.document
    regions := world.regions.modify id ({ · with region := adoption.region })
    hydration := world.hydration.count adoption.matched }

theorem run_adopt (self : Runner (Procedure γ) (World γ τ) Datum) (found : state.outside.regions[id]? = some mounted)
    (claimed : state.outside.claims[claimId]? = some claim) (lives : mounted.region.lives state.graph = true) :
    (do adopt id items claimId (← regionLives id) : LiveProgram γ τ Unit).run self state =
      .ok () { state with
        outside := state.outside.adopting id (mounted.region.adopt items claim true state.outside.document) } := by
  rw [Program.run_then (run_regionLives self found), lives]
  show EStateM.Result.ok () { state with outside := _ } = _
  dsimp only
  rw [found, claimed]
  rfl

/-- A region that is first shown over the siblings of a claim has, in their place, one node for each item in order; the
siblings before and behind stay, and those that are not shown stand nowhere. Siblings that are those of the items, text
for text, are taken as they are, no node is made, put anywhere or taken away, and it counts as a claim; otherwise it
counts as a miss. -/
theorem adopt_shows_items_in_place (self : Runner (Procedure γ) (World γ τ) Datum)
    (found : state.outside.regions[id]? = some mounted) (claimed : state.outside.claims[claimId]? = some claim)
    (lives : mounted.region.lives state.graph = true)
    (lists : state.outside.document.Lists mounted.region.parent (left ++ (given ++ right)))
    (claims : Claims claim given right) (made : MadeFor mounted.region claim) (once : (itemNodes items).Nodup)
    (fit : Given state.outside.document items) (inner : ∀ n ∈ itemNodes items, n ∉ left ∧ n ∉ right) :
    ∃ (world : World γ τ) (region : Region),
      (do adopt id items claimId (← regionLives id) : LiveProgram γ τ Unit).run self state =
        .ok () { state with outside := world } ∧
      world.regions[id]? = some { mounted with region } ∧
      world.document.children mounted.region.parent = left ++ region.current ++ right ∧
      Forall₂ (ShowsItem world.document) items region.current ∧
      (∀ n ∈ left ++ right, world.document.kind n = state.outside.document.kind n ∧
        world.document.data n = state.outside.document.data n) ∧
      (∀ n ∈ given, n ∉ region.current → world.document.parent? n = none) ∧
      (Forall₂ (TakenFor state.outside.document) items given →
        region.current = given ∧ world.document.changes = state.outside.document.changes ∧
          world.document.nodes.size = state.outside.document.nodes.size ∧
          world.hydration = { state.outside.hydration with claims := state.outside.hydration.claims + 1 }) ∧
      (¬ Forall₂ (TakenFor state.outside.document) items given →
        (∀ n ∈ given, n ∉ itemNodes items → world.document.parent? n = none) ∧
          world.hydration = { state.outside.hydration with misses := state.outside.hydration.misses + 1 }) := by
  have regions : (state.outside.adopting id (mounted.region.adopt items claim true state.outside.document)).regions[id]? =
      some { mounted with region := (mounted.region.adopt items claim true state.outside.document).region } := by
    simp [World.adopting, Array.getElem?_modify, found]
  have beside {next : Document γ Property} {current : List NodeId}
      (held : TakenOver state.outside.document next mounted.region.parent left given right items current) :
      ∀ n ∈ left ++ right, next.kind n = state.outside.document.kind n ∧ next.data n = state.outside.document.data n := by
    intro n inside
    have bound := lt_size_of_lists lists n (by simp only [mem_append] at inside ⊢; tauto)
    refine ⟨held.kept.kind_eq n bound, held.kept.data_eq n bound fun member => ?_⟩
    have once := lists.once
    rw [nodup_append, nodup_append] at once
    rcases mem_append.mp inside with before | behind
    · exact once.2.2 n before n (mem_append_left _ member) rfl
    · exact once.2.1.2.2 n member n behind rfl
  have children {next : Document γ Property} {current : List NodeId}
      (held : TakenOver state.outside.document next mounted.region.parent left given right items current) :
      next.children mounted.region.parent = left ++ current ++ right :=
    held.lists.children_eq.trans (append_assoc left current right).symm
  refine ⟨_, _, run_adopt self found claimed lives, regions, ?_⟩
  by_cases taken : Forall₂ (TakenFor state.outside.document) items given
  · obtain ⟨matched, shown, changes, size, taking⟩ := adopt_of_taken lists claims taken
    have current : (mounted.region.adopt items claim true state.outside.document).region.current = given := by rw [shown]
    have held : TakenOver state.outside.document
        (mounted.region.adopt items claim true state.outside.document).document mounted.region.parent left given right items
        (mounted.region.adopt items claim true state.outside.document).region.current := by
      rw [current]
      exact taking
    refine ⟨children held, held.shows, beside held, held.gone, fun _ => ⟨current, changes, size, ?_⟩, fun other => absurd taken other⟩
    rw [World.adopting, matched]
    rfl
  · obtain ⟨missed, gone, held⟩ := adopt_of_not_taken lists claims made once fit inner taken
    refine ⟨children held, held.shows, beside held, held.gone, fun same => absurd same taken, fun _ => ⟨gone, ?_⟩⟩
    rw [World.adopting, missed]
    rfl

/-- A claim over the text behind the marker of the paragraph, and the region to be shown there. -/
def claimedState : State (Procedure Unit) (World Unit Unit) Datum where
  outside := { document := paragraph, regions := #[⟨markedRegion, some 0⟩], claims := #[.make 0 (some 3) (some 4)], host := () }

/-- Another text is patched into the text node; an element comes to stand in its place and the text node goes. -/
theorem adopt_shows_items_in_place_paragraph : (∃ world : World Unit Unit,
      (do adopt 0 [.text "b"] 0 (← regionLives 0) : LiveProgram Unit Unit Unit).run (fun _ => throw .exhausted) claimedState =
        .ok () { claimedState with outside := world } ∧
      world.document.children 0 = [1, 2, 3, 4] ∧ world.hydration = ⟨1, 0⟩) ∧
    ∃ (world : World Unit Unit) (text : NodeId),
      (do adopt 0 [.node 5, .text "c"] 0 (← regionLives 0) : LiveProgram Unit Unit Unit).run (fun _ => throw .exhausted)
        claimedState = .ok () { claimedState with outside := world } ∧
      world.document.children 0 = [1, 2, 5, text, 4] ∧ world.document.parent? 3 = none ∧ world.hydration = ⟨0, 1⟩ := by
  have found : claimedState.outside.regions[0]? = some ⟨markedRegion, some 0⟩ := rfl
  have claimed : claimedState.outside.claims[0]? = some (.make 0 (some 3) (some 4)) := rfl
  have lists : paragraph.Lists 0 ([1, 2] ++ ([3] ++ [4])) := ⟨by decide, by decide, by decide, by decide⟩
  have claims : Claims (.make 0 (some 3) (some 4)) [3] [4] := ⟨rfl, rfl⟩
  have made : MadeFor markedRegion (.make 0 (some 3) (some 4)) := nofun
  constructor
  · have fit : Given paragraph [.text "b"] := nofun
    have once : (itemNodes [.text "b"]).Nodup := nodup_nil
    obtain ⟨world, region, run, -, children, -, -, -, taken, -⟩ := adopt_shows_items_in_place (fun _ => throw .exhausted) found
      claimed rfl lists claims made once fit nofun
    obtain ⟨current, -, -, counts⟩ := taken (.cons rfl .nil)
    rw [current] at children
    exact ⟨world, run, children, counts⟩
  · have fit : Given paragraph [.node 5, .text "c"] := by
      unfold Given
      decide
    obtain ⟨world, region, run, -, children, shows, -, -, -, missed⟩ := adopt_shows_items_in_place (fun _ => throw .exhausted) found
      claimed rfl lists claims made (by decide) fit (by decide)
    obtain ⟨gone, counts⟩ := missed fun taken => by cases taken.length_eq
    obtain ⟨text, same⟩ : ∃ text, region.current = [5, text] := by
      obtain ⟨n, rest, here, others, same⟩ := forall₂_cons_left_iff.mp shows
      obtain ⟨text, none, -, nothing, rfl⟩ := forall₂_cons_left_iff.mp others
      rw [same, show n = 5 from here, forall₂_nil_left_iff.mp nothing]
      exact ⟨text, rfl⟩
    rw [same] at children
    exact ⟨world, text, run, children, gone 3 (by decide) (by decide), counts⟩

end Programs
end LiveMarkup.Live
