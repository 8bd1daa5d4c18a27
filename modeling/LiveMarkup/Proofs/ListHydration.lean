import LiveMarkup.Proofs.ComponentViews

/-!
Lists that take over what a container holds. All elements come from one claim, which gives the next element to whoever
asks: entries that are cloned while the list is built ask before getters and components, which are asked when the list
is shown. So each entry gets the element that was rendered for it exactly when no entry that is built stands behind one
that is asked later.
-/

namespace LiveMarkup.Live
open Document Reactive List Program Procedure World Nat

variable {γ τ : Type} {host : Host γ τ} {level : Nat} {graph : Graph (Procedure γ) Datum} {world : World γ τ}

/-- How an entry of a list comes to its element: it is cloned from a template while the list is built, or when a getter
or a component is asked. -/
inductive Origin (γ : Type) where
  | built (template : NodeId)
  | getter (code : γ) (template : NodeId)
  | component (code : γ) (template : NodeId)

namespace Origin

def template : Origin γ → NodeId
  | built template | getter _ template | component _ template => template

def isBuilt : Origin γ → Bool
  | built _ => true
  | _ => false

/-- Clones the template of an entry, and keeps in mind which element that gave. -/
def clone (keep : Origin γ → NodeId → τ → τ) (origin : Origin γ) : LiveProgram γ τ (View γ) := do
  let n ← instantiate origin.template
  Program.altering fun world => { world with host := keep origin n world.host }
  return .node n

def build (keep : Origin γ → NodeId → τ → τ) : Origin γ → LiveProgram γ τ (View γ)
  | built template => (built template).clone keep
  | getter code _ => return .dynamic (.code code)
  | component code _ => deferred code

def buildAll (keep : Origin γ → NodeId → τ → τ) : List (Origin γ) → LiveProgram γ τ (List (View γ))
  | [] => return []
  | origin :: rest => do
    let view ← origin.build keep
    return view :: (← buildAll keep rest)

/-- Getters and components clone the templates of their entries. -/
def Serves (host : Host γ τ) (keep : Origin γ → NodeId → τ → τ) : Origin γ → Prop
  | built _ => True
  | getter code template => host.view code = (getter code template).clone keep
  | component code template => host.view code = (component code template).clone keep

def Fits (doc : Document γ Property) (origin : Origin γ) (n : NodeId) : Prop :=
  ∃ tag svg, doc.tag? origin.template = some tag ∧ doc.kind n = .element tag svg

end Origin

variable {keep : Origin γ → NodeId → τ → τ} {origin : Origin γ} {origins : List (Origin γ)} {doc : Document γ Property}
  {container : NodeId} {elements left early late nodes : List NodeId} {n : NodeId} {id : ClaimId} {views : List (View γ)}

/-- Elements were taken, one after the other, each by an entry, and nothing else has happened to the document. -/
structure Took (keep : Origin γ → NodeId → τ → τ) (taken : List (Origin γ × NodeId)) (world world' : World γ τ) : Prop where
  document_eq : world'.document = world.document
  frames_eq : world'.frames = world.frames
  regions_eq : world'.regions = world.regions
  hydration_eq : world'.hydration = { world.hydration with claims := world.hydration.claims + taken.length }
  host_eq : world'.host = taken.foldl (fun kept entry => keep entry.1 entry.2 kept) world.host

theorem Took.refl (world : World γ τ) : Took keep [] world world := ⟨rfl, rfl, rfl, rfl, rfl⟩

theorem Took.trans {first second third : World γ τ} {taken more : List (Origin γ × NodeId)}
    (one : Took keep taken first second) (two : Took keep more second third) : Took keep (taken ++ more) first third where
  document_eq := two.document_eq.trans one.document_eq
  frames_eq := two.frames_eq.trans one.frames_eq
  regions_eq := two.regions_eq.trans one.regions_eq
  hydration_eq := by
    rw [two.hydration_eq, one.hydration_eq, length_append, Nat.add_assoc]
  host_eq := by rw [two.host_eq, one.host_eq, foldl_append]

structure Offers (doc : Document γ Property) (elements : List NodeId) (id : ClaimId) (left : List NodeId) (world : World γ τ) :
    Prop where
  document_eq : world.document = doc
  framed : world.frames.head? = some (.claiming id)
  claim : ∃ claim, world.claims[id]? = some claim ∧ Claims claim elements [] ∧ claim.next = left.head?
  rest : left <:+ elements

theorem ensures_clone (lists : doc.Lists container elements) (offers : Offers doc elements id (n :: left) world)
    (fits : origin.Fits doc n) :
    (origin.clone keep).Ensures (meaning host) level graph world fun view graph' world' => view = .node n ∧
      graph' = graph ∧ Took keep [(origin, n)] world world' ∧ Offers doc elements id left world' ∧
      world'.lazies = world.lazies := by
  obtain ⟨rfl, framed, ⟨claim, found, claims, next⟩, ⟨before, split⟩⟩ := offers
  obtain ⟨_, _, tagged, element⟩ := fits
  obtain ⟨_, framed⟩ := head?_eq_some_iff.mp framed
  have solid : world.document.kind n ≠ .fragment := by simp [element]
  have size : 0 < world.document.nodes.size := zero_lt_of_lt (present_of_kind solid)
  have onward : world.document.next? n = left.head? := by
    rw [← split] at lists
    exact lists.next?
  refine (ensures_instantiate_claimed tagged framed found next (by simp [claims.ending_eq]) element size).bind ?_
  rintro n _ _ ⟨rfl, rfl, rfl⟩
  refine altering_then (ensures_pure ⟨rfl, rfl, ⟨rfl, rfl, rfl, rfl, rfl⟩, ⟨rfl, ?_, ?_, ?_⟩, rfl⟩)
  · simp [advanced, framed]
  · have moved : (advanced world id { claim with next := world.document.next? n }).claims[id]? =
        some { claim with next := world.document.next? n } := by simp [advanced, Array.getElem?_modify, found]
    exact ⟨_, moved, ⟨claims.first_eq, claims.ending_eq⟩, onward⟩
  · exact ⟨before ++ [_], by simpa using split⟩

/-- Elements are dealt to entries: the early ones in order to those that are built, the late ones in order to those that
are asked later. `nodes` are the elements in the order of the entries. -/
inductive Deals : (origins : List (Origin γ)) → (early late nodes : List NodeId) → Prop where
  | nil : Deals [] [] [] []
  | built {origin : Origin γ} {origins : List (Origin γ)} {early late nodes : List NodeId} {n : NodeId}
      (here : origin.isBuilt = true) (rest : Deals origins early late nodes) :
      Deals (origin :: origins) (n :: early) late (n :: nodes)
  | asked {origin : Origin γ} {origins : List (Origin γ)} {early late nodes : List NodeId} {n : NodeId}
      (here : origin.isBuilt = false) (rest : Deals origins early late nodes) :
      Deals (origin :: origins) early (n :: late) (n :: nodes)

/-- No entry that is built stands behind one that is asked later. -/
def BuiltFirst (origins : List (Origin γ)) : Prop := origins.Pairwise fun first second => second.isBuilt → first.isBuilt

/-- The entries in the order in which they come to their elements. -/
def inTurn (origins : List (Origin γ)) : List (Origin γ) :=
  origins.filter Origin.isBuilt ++ origins.filter (! ·.isBuilt)

theorem Deals.perm (deals : Deals origins early late nodes) : nodes.Perm (early ++ late) := by
  induction deals with
  | nil => exact .nil
  | built _ _ ih => exact ih.cons _
  | asked _ _ ih => exact (ih.cons _).trans perm_middle.symm

theorem Deals.early_eq_nil (deals : Deals origins early late nodes) (none : ∀ origin ∈ origins, origin.isBuilt = false) :
    early = [] := by
  induction deals with
  | nil => rfl
  | @built origin _ _ _ _ _ here =>
    rw [none origin (by simp)] at here
    cases here
  | asked _ _ ih => exact ih fun origin mem => none origin (mem_cons_of_mem _ mem)

theorem Deals.none_built (deals : Deals origins [] late nodes) : ∀ origin ∈ origins, origin.isBuilt = false := by
  generalize early : ([] : List NodeId) = dealt at deals
  induction deals with
  | nil => simp
  | built => cases early
  | asked here _ ih => exact forall_mem_cons.mpr ⟨here, ih early⟩

theorem Deals.eq_iff (deals : Deals origins early late nodes) (once : (early ++ late).Nodup) :
    nodes = early ++ late ↔ BuiltFirst origins := by
  induction deals with
  | nil => simp [BuiltFirst]
  | @built _ _ early late _ _ here _ ih =>
    have once' : (early ++ late).Nodup := (nodup_cons.mp once).2
    simp only [BuiltFirst, cons_append, cons.injEq, true_and, pairwise_cons] at ih ⊢
    rw [ih once']
    simp [here]
  | @asked origin origins early _ _ _ here rest ih =>
    have first : (∀ other ∈ origins, other.isBuilt → origin.isBuilt) ↔ early = [] := by
      simp only [here]
      constructor
      · exact fun none => rest.early_eq_nil fun other mem => by simpa using none other mem
      · rintro rfl other mem built
        simp [rest.none_built other mem] at built
    simp only [BuiltFirst, pairwise_cons, first] at ih ⊢
    cases early with
    | nil => simpa using ih (nodup_cons.mp once).2
    | cons =>
      refine iff_of_false (fun same => ?_) (by simp)
      obtain ⟨rfl, _⟩ := cons.inj same
      simp at once

section Building

/-- What awaits being shown: the elements of the entries that were built, and for the others getters and components that
have not been asked. No component has a number below `bound`. -/
inductive Awaits (host : Host γ τ) (keep : Origin γ → NodeId → τ → τ) (scope : OwnerId) (world : World γ τ) :
    (bound : LazyId) → (views : List (View γ)) → (origins : List (Origin γ)) → (late nodes : List NodeId) → Prop where
  | nil {bound : LazyId} : Awaits host keep scope world bound [] [] [] []
  | built {bound : LazyId} {views : List (View γ)} {origin : Origin γ} {origins : List (Origin γ)} {late nodes : List NodeId}
      {n : NodeId} (here : origin.isBuilt = true) (rest : Awaits host keep scope world bound views origins late nodes) :
      Awaits host keep scope world bound (.node n :: views) (origin :: origins) late (n :: nodes)
  | getter {bound : LazyId} {views : List (View γ)} {code : γ} {template : NodeId} {origins : List (Origin γ)}
      {late nodes : List NodeId} {n : NodeId} (serves : (Origin.getter code template).Serves host keep)
      (rest : Awaits host keep scope world bound views origins late nodes) :
      Awaits host keep scope world bound (.dynamic (.code code) :: views) (.getter code template :: origins) (n :: late)
        (n :: nodes)
  | component {bound lazy : LazyId} {views : List (View γ)} {code : γ} {template : NodeId} {origins : List (Origin γ)}
      {late nodes : List NodeId} {n : NodeId} (serves : (Origin.component code template).Serves host keep)
      (low : bound ≤ lazy) (offered : world.lazies[lazy]? = some { code := some code, owner := some scope })
      (rest : Awaits host keep scope world (lazy + 1) views origins late nodes) :
      Awaits host keep scope world bound (.deferred lazy :: views) (.component code template :: origins) (n :: late)
        (n :: nodes)

variable {scope : OwnerId} {bound : LazyId} {world' : World γ τ}

theorem Awaits.congr (awaits : Awaits host keep scope world bound views origins late nodes)
    (same : ∀ lazy, bound ≤ lazy → world'.lazies[lazy]? = world.lazies[lazy]?) :
    Awaits host keep scope world' bound views origins late nodes := by
  induction awaits with
  | nil => exact .nil
  | built here _ ih => exact .built here (ih same)
  | getter serves _ ih => exact .getter serves (ih same)
  | component serves low offered _ ih =>
    exact .component serves low ((same _ low).trans offered) (ih fun lazy above =>
      same lazy (low.trans (le_of_succ_le above)))

theorem ensures_buildAll (lists : doc.Lists container elements) (deals : Deals origins early late nodes)
    (offers : Offers doc elements id (early ++ left) world) (serves : ∀ origin ∈ origins, origin.Serves host keep)
    (fits : Forall₂ (Origin.Fits doc) (origins.filter Origin.isBuilt) early) (under : graph.owner = some scope) :
    (Origin.buildAll keep origins).Ensures (meaning host) level graph world fun views graph' world' =>
      graph' = graph ∧ Took keep ((origins.filter Origin.isBuilt).zip early) world world' ∧
      Offers doc elements id left world' ∧ Awaits host keep scope world' world.lazies.size views origins late nodes ∧
      ∀ lazy < world.lazies.size, world'.lazies[lazy]? = world.lazies[lazy]? := by
  induction deals generalizing world with
  | nil => exact ensures_pure ⟨rfl, .refl world, offers, .nil, fun _ _ => rfl⟩
  | @built origin _ early _ _ n here _ ih =>
    obtain ⟨_, later⟩ := forall_mem_cons.mp serves
    rw [filter_cons_of_pos here] at fits ⊢
    obtain ⟨fit, fits⟩ := forall₂_cons.mp fits
    have cloned : (origin.build keep).Ensures (meaning host) level graph world fun view graph' world' =>
        view = .node n ∧ graph' = graph ∧ Took keep [(origin, n)] world world' ∧
          Offers doc elements id (early ++ left) world' ∧ world'.lazies = world.lazies := by
      cases origin with
      | built => exact ensures_clone lists offers fit
      | getter _ _ | component _ _ => cases here
    refine cloned.bind ?_
    rintro _ _ _ ⟨rfl, rfl, took, offers, same⟩
    refine (ih offers later fits).bind ?_
    rintro _ _ _ ⟨rfl, took', offers, awaits, kept⟩
    rw [same] at awaits kept
    exact ensures_pure ⟨rfl, took.trans took', offers, .built here awaits, kept⟩
  | @asked origin _ early _ _ _ here _ ih =>
    obtain ⟨first, later⟩ := forall_mem_cons.mp serves
    rw [filter_cons_of_neg (by simp [here])] at fits ⊢
    cases origin with
    | built => cases here
    | getter =>
      refine (ih offers later fits).bind ?_
      rintro _ _ _ ⟨rfl, took, offers, awaits, kept⟩
      exact ensures_pure ⟨rfl, took, offers, .getter first awaits, kept⟩
    | component code =>
      refine (ensures_deferred under).bind ?_
      rintro _ _ _ ⟨rfl, rfl, rfl⟩
      have same : ∀ lazy < world.lazies.size, (world.offering code scope).lazies[lazy]? = world.lazies[lazy]? :=
        fun lazy low => (Array.getElem?_push_lt low).trans (Array.getElem?_eq_getElem low).symm
      have offered : (world.offering code scope).lazies[world.lazies.size]? =
          some { code := some code, owner := some scope } := Array.getElem?_push_size
      have size : (world.offering code scope).lazies.size = world.lazies.size + 1 := Array.size_push ..
      have offers' : Offers doc elements id (early ++ left) (world.offering code scope) :=
        { offers with }
      refine (ih offers' later fits).bind ?_
      rintro _ _ _ ⟨rfl, took, offers, awaits, kept⟩
      rw [size] at awaits kept
      refine ensures_pure ⟨rfl, { took with },
        offers, .component first (le_rfl) ?_ awaits, fun lazy low => ?_⟩
      · rw [kept _ (lt_succ_self _), offered]
      · rw [kept lazy (lt_succ_of_lt low), same lazy low]

end Building

section Showing

variable {scope : OwnerId} {bound : LazyId} {world' : World γ τ}

theorem Origin.Fits.solid (fits : origin.Fits doc n) : doc.isFragment n = false := by
  obtain ⟨_, _, _, element⟩ := fits
  simp [isFragment, element]

theorem ensures_items_cloned (took : Took keep [(origin, n)] world world') (fits : origin.Fits world.document n) :
    (View.items (.node n)).Ensures (meaning host) 0 graph world' fun items graph' after =>
      items = [.node n] ∧ graph' = graph ∧ after = world' := by
  rw [← took.document_eq] at fits
  exact (fixed_node fits.solid).items_eq graph world' rfl

variable (lists : doc.Lists container elements) {template : NodeId} {code : γ}
include lists

theorem ensures_items_getter (offers : Offers doc elements id (n :: left) world)
    (serves : (Origin.getter code template).Serves host keep) (fits : (Origin.getter code template).Fits doc n) :
    (View.items (.dynamic (.code code))).Ensures (meaning host) 1 graph world fun items graph' world' =>
      items = [.node n] ∧ graph' = graph ∧ Took keep [(.getter code template, n)] world world' ∧
        Offers doc elements id left world' ∧ world'.lazies = world.lazies := by
  have cloned : (meaning host (.view (.code code))).Ensures (meaning host) 0 graph world
      fun view graph' world' => view = .node n ∧ graph' = graph ∧ Took keep [(.getter code template, n)] world world' ∧
        Offers doc elements id left world' ∧ world'.lazies = world.lazies := by
    rw [meaning, serves]
    exact ensures_clone lists offers fits
  refine (ensures_call cloned).bind ?_
  rintro _ _ _ ⟨rfl, rfl, took, offers', same⟩
  refine ensures_call ((ensures_items_cloned took (offers.document_eq ▸ fits)).mono ?_)
  rintro _ _ _ ⟨rfl, rfl, rfl⟩
  exact ⟨rfl, rfl, took, offers', same⟩

theorem ensures_items_component {lazy : LazyId}
    (offers : Offers doc elements id (n :: left) world) (serves : (Origin.component code template).Serves host keep)
    (fits : (Origin.component code template).Fits doc n)
    (offered : world.lazies[lazy]? = some { code := some code, owner := some scope }) :
    (View.items (.deferred lazy)).Ensures (meaning host) 1 graph world fun items graph' world' =>
      items = [.node n] ∧ graph' = graph ∧ Took keep [(.component code template, n)] world world' ∧
        Offers doc elements id left world' ∧ ∀ other, other ≠ lazy → world'.lazies[other]? = world.lazies[other]? := by
  have asking : Offers doc elements id (n :: left) (world.asking lazy) :=
    { offers with }
  have forced : (force lazy).Ensures (meaning host) 1 graph world fun view graph' world' => ∃ before,
      (view = .node n ∧ graph' = graph ∧ Took keep [(.component code template, n)] (world.asking lazy) before ∧
        Offers doc elements id left before ∧ before.lazies = (world.asking lazy).lazies) ∧
      world' = before.answered lazy view := by
    refine ensures_force (fun view graph' before => view = .node n ∧ graph' = graph ∧
      Took keep [(.component code template, n)] (world.asking lazy) before ∧ Offers doc elements id left before ∧
        before.lazies = (world.asking lazy).lazies) offered ?_
    rw [serves]
    refine (ensures_clone lists asking fits).mono ?_
    rintro _ _ _ ⟨rfl, rfl, took⟩
    exact ⟨rfl, rfl, took⟩
  refine forced.bind ?_
  rintro _ _ _ ⟨before, ⟨rfl, rfl, took, offers', same⟩, rfl⟩
  have took' : Took keep [(.component code template, n)] world (before.answered lazy (.node n)) :=
    { took with }
  refine ensures_call ((ensures_items_cloned took' (offers.document_eq ▸ fits)).mono ?_)
  rintro _ _ _ ⟨rfl, rfl, rfl⟩
  refine ⟨rfl, rfl, took', ⟨offers'.document_eq, offers'.framed, offers'.claim, offers'.rest⟩, fun other apart => ?_⟩
  have apart' : ¬ lazy = other := fun equal => apart equal.symm
  simp [World.answered, same, World.asking, Array.getElem?_modify, apart']

theorem ensures_itemsOfAll (awaits : Awaits host keep scope world bound views origins late nodes)
    (offers : Offers doc elements id (late ++ left) world)
    (fits : List.Forall₂ (Origin.Fits doc) (origins.filter (! ·.isBuilt)) late)
    (solid : ∀ n ∈ nodes, doc.isFragment n = false) :
    (View.itemsOfAll views).Ensures (meaning host) 1 graph world fun items graph' world' =>
      items = nodes.map .node ∧ graph' = graph ∧ Took keep ((origins.filter (! ·.isBuilt)).zip late) world world' ∧
        Offers doc elements id left world' := by
  induction views generalizing world bound origins late nodes graph with
  | nil =>
    cases awaits
    exact ensures_pure ⟨rfl, rfl, .refl world, offers⟩
  | cons _ _ ih =>
    cases awaits with
    | @built _ _ _ _ _ _ n here rest =>
      rw [filter_cons_of_neg (by simp [here])] at fits ⊢
      have hard : world.document.isFragment n = false := offers.document_eq ▸ solid n (by simp)
      have shown : (View.items (.node n)).Ensures (meaning host) 0 graph world fun items graph' after =>
          items = [.node n] ∧ graph' = graph ∧ after = world := (fixed_node hard).items_eq graph world rfl
      refine (shown.raise (zero_le 1)).bind ?_
      rintro _ _ _ ⟨rfl, rfl, rfl⟩
      refine (ih rest offers fits fun n mem => solid n (by simp [mem])).bind ?_
      rintro _ _ _ ⟨rfl, rfl, took, offers⟩
      exact ensures_pure ⟨rfl, rfl, took, offers⟩
    | @getter _ _ _ _ _ _ _ n serves rest =>
      rw [filter_cons_of_pos (by simp [Origin.isBuilt])] at fits ⊢
      obtain ⟨fit, fits⟩ := forall₂_cons.mp fits
      refine (ensures_items_getter lists offers serves fit).bind ?_
      rintro _ _ _ ⟨rfl, rfl, took, offers, same⟩
      refine (ih (rest.congr fun lazy _ => by rw [same]) offers fits fun n mem => solid n (by simp [mem])).bind ?_
      rintro _ _ _ ⟨rfl, rfl, took', offers⟩
      exact ensures_pure ⟨rfl, rfl, took.trans took', offers⟩
    | @component _ _ _ _ _ _ _ _ n serves _ offered rest =>
      rw [filter_cons_of_pos (by simp [Origin.isBuilt])] at fits ⊢
      obtain ⟨fit, fits⟩ := forall₂_cons.mp fits
      refine (ensures_items_component lists offers serves fit offered).bind ?_
      rintro _ _ _ ⟨rfl, rfl, took, offers, same⟩
      refine (ih (rest.congr fun other above => same other (ne_of_gt above)) offers fits
        fun n mem => solid n (by simp [mem])).bind ?_
      rintro _ _ _ ⟨rfl, rfl, took', offers⟩
      exact ensures_pure ⟨rfl, rfl, took.trans took', offers⟩

end Showing

section Mounting

variable {scope : OwnerId} {bound : LazyId} {rid : RegionId} {region : Region}

variable (lists : doc.Lists container elements) (alive : graph.ownerAlive scope = true)
  (awaits : Awaits host keep scope world bound views origins late nodes)
  (offers : Offers doc elements id late { world with frames := .claiming id :: world.frames })
  (fits : Forall₂ (Origin.Fits doc) (origins.filter (! ·.isBuilt)) late)
  (solid : ∀ n ∈ nodes, doc.isFragment n = false)
include lists alive awaits offers fits solid

theorem ensures_refresh_list (found : world.regions[rid]? = some ⟨region, some id⟩) (owned : region.owner = some scope) :
    (refresh rid (.list views)).Ensures (meaning host) 1 graph world fun _ graph' world' => graph' = graph ∧
      ∃ claim before, Claims claim elements [] ∧
        Took keep ((origins.filter (! ·.isBuilt)).zip late) (world.taken rid) before ∧
        world' = before.adopted rid region (nodes.map .node) claim := by
  have framed : Offers doc elements id (late ++ []) { world.taken rid with frames := .claiming id :: world.frames } := by
    rw [append_nil]
    exact { offers with }
  have awaits' : Awaits host keep scope { world.taken rid with frames := .claiming id :: world.frames } bound views origins late
      nodes := awaits.congr fun _ _ => rfl
  refine (ensures_refresh_claiming (fun items claim graph' before => items = nodes.map .node ∧ graph' = graph ∧
    Claims claim elements [] ∧ Took keep ((origins.filter (! ·.isBuilt)).zip late) (world.taken rid) before) found owned
    ((ensures_itemsOfAll lists awaits' framed fits solid).mono ?_)).mono ?_
  · rintro _ _ after ⟨rfl, rfl, took, offers⟩
    obtain ⟨claim, found', claims, _⟩ := offers.claim
    refine ⟨alive, ?_, claim, found', rfl, rfl, claims, took.document_eq, ?_, took.regions_eq, took.hydration_eq, took.host_eq⟩
    · rw [took.regions_eq]
      exact regions_taken found
    · show after.frames.drop 1 = world.frames
      rw [took.frames_eq]
      rfl
  · rintro _ _ _ ⟨_, claim, before, ⟨rfl, rfl, claims, took⟩, rfl⟩
    exact ⟨rfl, claim, before, claims, took, rfl⟩

theorem ensures_mount_list (rest : AtRest graph (some scope)) (apart : scope ≠ graph.nextId) :
    (mount { parent := container } (.list views) (some id)).Ensures (meaning host) 3 graph world
      fun _ graph' world' => AtRest graph' (some scope) ∧ ∃ claim before, Claims claim elements [] ∧
        Took keep ((origins.filter (! ·.isBuilt)).zip late)
          (world.mounted { parent := container, owner := some scope } none) before ∧
        world' = before.adopted world.regions.size { parent := container, owner := some scope } (nodes.map .node) claim := by
  refine currentOwner_then (changing_then ?_)
  rw [rest.owner_eq]
  have there := regions_mounted world { parent := container, owner := some scope } (some id)
  have taken := taken_mounted world { parent := container, owner := some scope } id
  have awaits' : Awaits host keep scope (world.mounted { parent := container, owner := some scope } (some id)) bound views
      origins late nodes := awaits.congr fun _ _ => rfl
  have offers' : Offers doc elements id late { world.mounted { parent := container, owner := some scope } (some id) with
      frames := .claiming id :: world.frames } := { offers with }
  have refreshes (graph' : Graph (Procedure γ) Datum) (alive : graph'.ownerAlive scope = true) :=
    ensures_refresh_list lists alive awaits' offers' fits solid there rfl
  rw [taken] at refreshes
  split
  · refine Program.Ensures.bind (ensures_newEffect_unread rest apart fun graph' same => refreshes graph' (same.trans alive)) ?_
    rintro _ _ _ ⟨resting, shown⟩
    exact ensures_pure ⟨resting, shown⟩
  · refine ensures_untracked (((refreshes { graph with observer := none } alive).raise (by omega)).mono ?_)
    rintro _ _ _ ⟨rfl, shown⟩
    exact ⟨{ rest with }, shown⟩

end Mounting

section Hydrating

theorem matched_adopt (region : Region) (nodes : List NodeId) (claim : Claim) (doc : Document γ Property) :
    (region.adopt (mergeItems (nodes.map .node)) claim true doc).matched = decide (nodes = claim.nodes doc) := by
  rw [adopt_eq, mergeItems_nodes]
  by_cases same : nodes = claim.nodes doc
  · rw [if_pos ((fits_nodes_iff doc nodes _).mpr same)]
    simp [same]
  · rw [if_neg (mt (fits_nodes_iff doc nodes _).mp same)]
    simp [same]

theorem exists_deals (origins : List (Origin γ)) (early late : List NodeId)
    (first : (origins.filter Origin.isBuilt).length = early.length)
    (second : (origins.filter (! ·.isBuilt)).length = late.length) : ∃ nodes, Deals origins early late nodes := by
  induction origins generalizing early late with
  | nil =>
    obtain rfl := length_eq_zero_iff.mp first.symm
    obtain rfl := length_eq_zero_iff.mp second.symm
    exact ⟨[], .nil⟩
  | cons origin _ ih =>
    cases here : origin.isBuilt with
    | true =>
      rw [filter_cons_of_pos here, length_cons] at first
      rw [filter_cons_of_neg (by simp [here])] at second
      obtain ⟨n, early, rfl⟩ := exists_cons_of_length_eq_add_one first.symm
      obtain ⟨nodes, rest⟩ := ih early late (succ.inj first) second
      exact ⟨n :: nodes, .built here rest⟩
    | false =>
      rw [filter_cons_of_neg (by simp [here])] at first
      rw [filter_cons_of_pos (by simp [here]), length_cons] at second
      obtain ⟨n, late, rfl⟩ := exists_cons_of_length_eq_add_one second.symm
      obtain ⟨nodes, rest⟩ := ih early late first (succ.inj second)
      exact ⟨n :: nodes, .asked here rest⟩

theorem inTurn_of_builtFirst (ordered : BuiltFirst origins) : inTurn origins = origins := by
  induction origins with
  | nil => rfl
  | cons origin origins ih =>
    obtain ⟨first, later⟩ := pairwise_cons.mp ordered
    have same : origins.filter Origin.isBuilt ++ origins.filter (! ·.isBuilt) = origins := ih later
    cases here : origin.isBuilt with
    | true => simp [inTurn, here, same]
    | false =>
      have none : ∀ other ∈ origins, other.isBuilt = false := fun other mem => by
        simpa [here] using first other mem
      have empty : origins.filter Origin.isBuilt = [] := filter_eq_nil_iff.mpr fun other mem => by simp [none other mem]
      rw [empty, nil_append] at same
      simp [inTurn, here, empty, same]

theorem length_inTurn (origins : List (Origin γ)) : (inTurn origins).length = origins.length := by
  have split : origins.countP Origin.isBuilt + origins.countP (fun origin => decide ¬ origin.isBuilt) = origins.length :=
    length_eq_countP_add_countP Origin.isBuilt |>.symm
  simpa [inTurn, countP_eq_length_filter] using split

/-- The view of a list, whose built entries are cloned on the way. -/
def listOf (keep : Origin γ → NodeId → τ → τ) (origins : List (Origin γ)) : LiveProgram γ τ (View γ) := do
  return .list (← Origin.buildAll keep origins)

variable {scope : OwnerId}

/-- A list is shown over the elements of a container: in turn its entries have taken these elements, which stand in the
order of the entries. -/
structure ShownOver (keep : Origin γ → NodeId → τ → τ) (origins : List (Origin γ)) (elements nodes : List NodeId)
    (container : NodeId) (world before world' : World γ τ) : Prop where
  document_eq : before.document = world.document
  hydration_eq : before.hydration = { world.hydration with claims := world.hydration.claims + origins.length }
  host_eq : before.host = ((inTurn origins).zip elements).foldl (fun kept entry => keep entry.1 entry.2 kept) world.host
  adopted : ∃ region claim id, region.parent = container ∧ region.ending = none ∧ region.before = none ∧
    region.start = none ∧ Claims claim elements [] ∧ world' = before.adopted id region (nodes.map .node) claim

theorem ensures_mount_over (lists : doc.Lists container elements) (rest : AtRest graph (some scope))
    (alive : graph.ownerAlive scope = true) (apart : scope ≠ graph.nextId) (deals : Deals origins early late nodes)
    (split : early ++ late = elements) (serves : ∀ origin ∈ origins, origin.Serves host keep)
    (fitsEarly : Forall₂ (Origin.Fits doc) (origins.filter Origin.isBuilt) early)
    (fitsLate : Forall₂ (Origin.Fits doc) (origins.filter (! ·.isBuilt)) late)
    (solid : ∀ n ∈ nodes, doc.isFragment n = false)
    (offers : Offers doc elements id elements { world with frames := .claiming id :: world.frames }) :
    (do
      let view ← inFrame (.claiming id) (listOf keep origins)
      mount { parent := container } view (some id) : LiveProgram γ τ Unit).Ensures (meaning host) 3 graph world
        fun _ graph' world' => AtRest graph' (some scope) ∧
          ∃ before, ShownOver keep origins elements nodes container world before world' := by
  subst split
  have turns : (inTurn origins).zip (early ++ late) =
      (origins.filter Origin.isBuilt).zip early ++ (origins.filter (! ·.isBuilt)).zip late := zip_append fitsEarly.length_eq
  have count : ((inTurn origins).zip (early ++ late)).length = origins.length := by
    have same : (inTurn origins).length = (early ++ late).length := by
      rw [inTurn, length_append, length_append, fitsEarly.length_eq, fitsLate.length_eq]
    rw [length_zip, ← same, length_inTurn, Nat.min_self]
  have built : (inFrame (.claiming id) (listOf keep origins)).Ensures (meaning host) 3 graph world
      fun view graph' between => graph' = graph ∧ ∃ views, view = .list views ∧
        Took keep ((origins.filter Origin.isBuilt).zip early) world between ∧
        Awaits host keep scope between world.lazies.size views origins late nodes ∧
        Offers doc (early ++ late) id late { between with frames := .claiming id :: between.frames } := by
    refine ensures_inFrame ((ensures_buildAll lists deals offers serves fitsEarly rest.owner_eq).bind ?_)
    rintro views _ after ⟨rfl, took, offers, awaits, -⟩
    have framed : after.frames.drop 1 = world.frames := by rw [took.frames_eq, drop_one, tail_cons]
    exact ensures_pure ⟨rfl, views, rfl, { took with frames_eq := framed },
      awaits.congr fun _ _ => rfl, { offers with framed := rfl }⟩
  refine built.bind ?_
  rintro _ _ _ ⟨rfl, _, rfl, took, awaits, offers'⟩
  refine (ensures_mount_list lists alive awaits offers' fitsLate solid rest apart).mono ?_
  rintro _ _ _ ⟨resting, claim, before, claims, took', rfl⟩
  refine ⟨resting, before, ⟨took'.document_eq.trans took.document_eq, ?_, ?_, _, claim, _, rfl, rfl, rfl, rfl, claims, rfl⟩⟩
  · rw [took'.hydration_eq, ← count, turns, length_append, ← Nat.add_assoc]
    show Hydration.mk _ _ = _
    rw [mounted, took.hydration_eq]
  · rw [took'.host_eq, turns, foldl_append, ← took.host_eq]
    rfl

theorem ShownOver.outcome {before world' : World γ τ}
    (shown : ShownOver keep origins elements nodes container world before world')
    (lists : world.document.Lists container elements) (deals : Deals origins early late nodes)
    (split : early ++ late = elements) (solid : ∀ n ∈ nodes, world.document.isFragment n = false) :
    world'.host = ((inTurn origins).zip elements).foldl (fun kept entry => keep entry.1 entry.2 kept) world.host ∧
      world'.document.Lists container nodes ∧
      (BuiltFirst origins → world'.document = world.document ∧
        world'.hydration = { world.hydration with claims := world.hydration.claims + origins.length + 1 }) ∧
      (¬ BuiltFirst origins → world'.hydration =
        { claims := world.hydration.claims + origins.length, misses := world.hydration.misses + 1 }) := by
  obtain ⟨region, claim, id, rfl, open_, plain, fixed, claims, rfl⟩ := shown.adopted
  have among : ∀ n ∈ nodes, n ∈ elements := fun n mem => split ▸ deals.perm.mem_iff.mp mem
  have lists' : before.document.Lists region.parent ([] ++ (elements ++ [])) := by
    rw [shown.document_eq, nil_append, append_nil]
    exact lists
  have fitting : Fitting before.document region.parent [] nodes [] := by
    rw [shown.document_eq]
    exact ⟨deals.perm.nodup_iff.mpr (split ▸ lists.once), solid, by simp,
      fun n mem => .inr (lists.parents n (among n mem))⟩
  obtain ⟨-, refilled, same⟩ := refilled_adopt lists' claims open_ plain fixed fitting
  have ordered : nodes = elements ↔ BuiltFirst origins := split ▸ deals.eq_iff (split ▸ lists.once)
  have matched : (region.adopt (mergeItems (nodes.map .node)) claim true before.document).matched =
      decide (nodes = elements) := by
    rw [matched_adopt, claim_nodes lists' claims]
  have stands : (before.adopted id region (nodes.map .node) claim).document.Lists region.parent ([] ++ (nodes ++ [])) :=
    refilled.lists
  rw [nil_append, append_nil] at stands
  refine ⟨shown.host_eq, stands, fun first => ?_, fun mixed => ?_⟩
  · obtain ⟨taken, kept⟩ := same (ordered.mpr first)
    refine ⟨kept.trans shown.document_eq, ?_⟩
    show before.hydration.count _ = _
    rw [taken, shown.hydration_eq, Hydration.count, if_pos rfl]
  · show before.hydration.count _ = _
    rw [matched, decide_eq_false (mt ordered.mp mixed), shown.hydration_eq]
    rfl

end Hydrating

/-- A list is hydrated over elements that fit its entries in the order in which they come to them. They get the elements
in this order, and in the container the elements are put into the order of the entries. When no entry that is built
stands behind one that is asked later, each gets the element in its place, all matches and nothing is changed. Else the
list is a miss. -/
theorem list_takes_elements_in_turn (rest : AtRest graph none)
    (lists : world.document.Lists container elements) (serves : ∀ origin ∈ origins, origin.Serves host keep)
    (fits : Forall₂ (Origin.Fits world.document) (inTurn origins) elements) :
    (hydrate (listOf keep origins) container).Ensures (Procedure.meaning host) 3 graph world fun result _ world' =>
      world'.host = ((inTurn origins).zip elements).foldl (fun kept entry => keep entry.1 entry.2 kept) world.host ∧
      (∃ early late nodes, early ++ late = elements ∧ Deals origins early late nodes ∧
        world'.document.Lists container nodes) ∧
      (BuiltFirst origins → inTurn origins = origins ∧ result.2 = { claims := origins.length + 1, misses := 0 } ∧
        world'.document = world.document) ∧
      (¬ BuiltFirst origins → result.2 = { claims := origins.length, misses := 1 }) := by
  obtain ⟨early, late, rfl, fitsEarly, fitsLate⟩ := forall₂_append_left fits
  obtain ⟨nodes, deals⟩ := exists_deals origins early late fitsEarly.length_eq fitsLate.length_eq
  have fit : ∀ n ∈ early ++ late, ∃ origin : Origin γ, origin.Fits world.document n := fun n inside => by
    obtain ⟨i, bound, rfl⟩ := mem_iff_getElem.mp inside
    exact ⟨_, (forall₂_iff_get.mp fits).2 i (fits.length_eq ▸ bound) bound⟩
  have solid : ∀ n ∈ nodes, world.document.isFragment n = false := fun n inside =>
    (fit n (deals.perm.mem_iff.mp inside)).elim fun _ fits => fits.solid
  let start : World γ τ :=
    { world with hydration := {}, claims := world.claims.push (Claim.ofParent world.document container) }
  have claims : Claims (Claim.ofParent world.document container) (early ++ late) [] := by
    refine claims_ofParent (by simpa using lists) (fun n inside => ?_) (by simp [Closes])
    obtain ⟨origin, tag, svg, -, element⟩ := fit n inside
    simp [isComment, element]
  have first : (Claim.ofParent world.document container).next = (early ++ late).head? :=
    claims.first_eq.trans (congrArg head? (append_nil _))
  have offers : Offers world.document (early ++ late) world.claims.size (early ++ late)
      { start with frames := .claiming world.claims.size :: start.frames } :=
    ⟨rfl, rfl, ⟨_, Array.getElem?_push_size, claims, first⟩, suffix_refl _⟩
  let program : LiveProgram γ τ Unit := do
    let view ← inFrame (.claiming world.claims.size) (listOf keep origins)
    mount { parent := container } view (some world.claims.size)
  have under : ∀ graph', Wired graph' graph.nextId [] (fun _ => none) [] → AtRest graph' (some graph.nextId) →
      program.Ensures (meaning host) 3 graph' start fun _ graph'' world' =>
        AtRest graph'' (some graph.nextId) ∧
          ∃ before, ShownOver keep origins (early ++ late) nodes container start before world' := by
    intro graph' wired resting
    have alive : graph'.ownerAlive graph.nextId = true := Option.isSome_iff_exists.mpr ⟨_, wired.root_eq⟩
    exact ensures_mount_over lists resting alive (wired.fresh _ (by simp)) deals rfl serves fitsEarly fitsLate solid offers
  refine altering_then (seeing_then (changing_then ?_))
  show (underRoot program >>= _).Ensures _ 3 graph start _
  refine (ensures_underRoot
    (fun _ _ world' => ∃ before, ShownOver keep origins (early ++ late) nodes container start before world') (fun _ _ held => by cases held) rest under).bind ?_
  rintro ⟨_, root⟩ graph' world' ⟨rfl, _, before, shown⟩
  obtain ⟨host_eq, stands, matched, missed⟩ := shown.outcome lists deals rfl solid
  refine seeing_then (ensures_pure ⟨host_eq, ⟨early, late, nodes, rfl, deals, stands⟩, fun first => ?_,
    fun mixed => ?_⟩)
  · obtain ⟨document, hydration⟩ := matched first
    exact ⟨inTurn_of_builtFirst first, by simpa [start] using hydration, document⟩
  · simpa [start] using missed mixed

def noted (origin : Origin Unit) (n : NodeId) (kept : List (NodeId × NodeId)) : List (NodeId × NodeId) :=
  kept ++ [(origin.template, n)]

def twinHost : Host Unit (List (NodeId × NodeId)) where
  view _ := (Origin.getter () 3).clone noted
  attributeText _ := return none
  datum _ := return .bool false
  act _ := return
  handle _ _ := return

/-- A container with two elements of one kind, and a template for either. -/
def twinWorld : World Unit (List (NodeId × NodeId)) where
  document := { nodes := #[
    { kind := .element "main" false, children := [1, 2] }, { kind := .element "b" false, parent := some 0 },
    { kind := .element "b" false, parent := some 0 }, { kind := .element "b" false }, { kind := .element "b" false }] }
  host := []

def orderedTwins : List (Origin Unit) := [.built 4, .getter () 3]

theorem list_takes_elements_in_turn_twins :
    (hydrate (listOf noted orderedTwins) 0).Ensures (Procedure.meaning twinHost) 3 {} twinWorld fun result _ world' =>
      world'.host = [(4, 1), (3, 2)] ∧ result.2 = { claims := 3, misses := 0 } ∧ world'.document = twinWorld.document := by
  have lists : twinWorld.document.Lists 0 [1, 2] := ⟨rfl, rfl, by decide, by decide⟩
  have fits : Forall₂ (Origin.Fits twinWorld.document) (inTurn orderedTwins) [1, 2] :=
    .cons ⟨"b", false, rfl, rfl⟩ (.cons ⟨"b", false, rfl, rfl⟩ .nil)
  have serves : ∀ origin ∈ orderedTwins, origin.Serves twinHost noted := by
    simp [orderedTwins, Origin.Serves, twinHost]
  have first : BuiltFirst orderedTwins := by simp [BuiltFirst, orderedTwins, Origin.isBuilt]
  refine (list_takes_elements_in_turn ⟨rfl, rfl, rfl, rfl, rfl⟩ lists serves fits).mono ?_
  rintro result _ world' ⟨host_eq, -, matched, -⟩
  obtain ⟨-, hydration, document⟩ := matched first
  exact ⟨host_eq, hydration, document⟩

/-- An entry that is built stands behind a getter: each takes the element of the other, and the elements change places. -/
theorem built_entry_takes_element_of_getter :
    (match run twinHost (hydrate (listOf noted [.getter () 3, .built 4]) 0) { outside := twinWorld } with
      | .ok result after => some (result.2, after.outside.host, after.outside.document.children 0)
      | .error .. => none) = some ({ claims := 2, misses := 1 }, [(4, 1), (3, 2)], [2, 1]) := by
  decide +kernel

end LiveMarkup.Live
