import LiveMarkup.Live.Dispatch
import LiveMarkup.Live.Meaning
import LiveMarkup.Proofs.Execution
import LiveMarkup.Proofs.Regions

/-!
What programs over a live document come to, as functions on the world: binding attributes, showing a view in a region,
once or as a reaction, and taking over what is there.
-/

namespace LiveMarkup.Live
open Document Reactive Procedure Program World Array

variable {γ τ : Type} {host : Host γ τ} {level : Nat} {graph : Graph (Procedure γ) Datum} {world : World γ τ}
  {claimed : Claim}

section Worlds

variable {id : RegionId} {pending : Option ClaimId} {old : Region}

def World.updated (world : World γ τ) (id : RegionId) (region : Region) (items : List Item) : World γ τ :=
  let shown := region.update (mergeItems items) world.document
  { world with document := shown.2, regions := world.regions.modify id ({ · with region := shown.1 }) }

def Hydration.count (counts : Hydration) (matched : Bool) : Hydration :=
  if matched then { counts with claims := counts.claims + 1 } else { counts with misses := counts.misses + 1 }

def World.adopted (world : World γ τ) (id : RegionId) (region : Region) (items : List Item) (claim : Claim) : World γ τ :=
  let adoption := region.adopt (mergeItems items) claim true world.document
  { world with
    document := adoption.document
    regions := world.regions.modify id ({ · with region := adoption.region })
    hydration := world.hydration.count adoption.matched }

def World.taken (world : World γ τ) (id : RegionId) : World γ τ :=
  { world with regions := world.regions.modify id ({ · with pending := none }) }

theorem World.regions_updated (found : world.regions[id]? = some ⟨old, pending⟩) (region : Region) (items : List Item) :
    (world.updated id region items).regions[id]? =
      some ⟨(region.update (mergeItems items) world.document).1, pending⟩ := by
  simp [updated, getElem?_modify, found]

theorem World.regions_adopted (found : world.regions[id]? = some ⟨old, pending⟩) (region : Region) (items : List Item)
    (claim : Claim) :
    (world.adopted id region items claim).regions[id]? =
      some ⟨(region.adopt (mergeItems items) claim true world.document).region, pending⟩ := by
  simp [adopted, getElem?_modify, found]

theorem modify_eq_self {α : Type} {array : Array α} {i : Nat} {f : α → α} {value : α} (found : array[i]? = some value)
    (same : f value = value) : array.modify i f = array := by
  apply ext_getElem?
  intro j
  rw [getElem?_modify]
  by_cases here : i = j
  · subst here
    simp [found, same]
  · simp [here]

theorem World.taken_eq {region : Region} (found : world.regions[id]? = some ⟨region, none⟩) : world.taken id = world := by
  have same : world.regions.modify id ({ · with pending := none }) = world.regions := modify_eq_self found rfl
  rw [taken, same]

end Worlds

theorem ensures_inFrame {ι : Type} {frame : Frame} {body : LiveProgram γ τ ι}
    {post : ι → Graph (Procedure γ) Datum → World γ τ → Prop}
    (ensures : body.Ensures (meaning host) level graph { world with frames := frame :: world.frames }
      fun result graph' world' => post result graph' { world' with frames := world'.frames.drop 1 }) :
    (inFrame frame body).Ensures (meaning host) level graph world post := by
  refine altering_then ?_
  refine ensures.bind fun result graph' world' holds => ?_
  exact altering_then (ensures_pure holds)

section Tasks

variable {root owner : OwnerId} {cell : CellId} {value : Datum} {data : String}

theorem answers_bind (fits : value.fitsAttribute) (n : NodeId) (binding : Binding) (world : World γ τ) :
    Answers (meaning host) 1 root owner cell value (.bind n binding (.cell cell)) world
      fun world' => world' = { world with document := binding.apply n value.attribute? world.document } := by
  intro graph attends
  have text : (meaning host (.attributeText (.cell cell))).Ensures (meaning host) 0 graph world
      fun text graph' world' => text = value.attribute? ∧ graph' = graph.track cell ∧ world' = world := by
    refine (ensures_get attends).bind ?_
    rintro _ _ _ ⟨rfl, rfl, rfl⟩
    rw [Datum.toAttribute, if_pos fits]
    exact ensures_pure ⟨rfl, rfl, rfl⟩
  refine (ensures_call text).bind ?_
  rintro _ _ _ ⟨rfl, rfl, rfl⟩
  exact ensures_changing ⟨rfl, rfl⟩

theorem ensures_items_cell (attends : Attends graph root owner cell value) (text : (View.ofDatum value : View γ) = .text data) :
    (View.items (.dynamic (.cell cell)) : LiveProgram γ τ _).Ensures (meaning host) 1 graph world
      fun items graph' world' => items = [.text data] ∧ graph' = graph.track cell ∧ world' = world := by
  have view : (meaning host (.view (.cell cell))).Ensures (meaning host) 0 graph world
      fun view graph' world' => view = .text data ∧ graph' = graph.track cell ∧ world' = world := by
    refine (ensures_get attends).bind ?_
    rintro _ _ _ ⟨rfl, rfl, rfl⟩
    exact ensures_pure ⟨text, rfl, rfl⟩
  refine (ensures_call view).bind ?_
  rintro _ _ _ ⟨rfl, rfl, rfl⟩
  exact ensures_call (ensures_pure ⟨rfl, rfl, rfl⟩)

theorem ensures_items_nodes {nodes : List NodeId} (solid : ∀ n ∈ nodes, world.document.isFragment n = false) :
    (View.items (.list (nodes.map .node)) : LiveProgram γ τ _).Ensures (meaning host) level graph world
      fun items graph' world' => items = nodes.map .node ∧ graph' = graph ∧ world' = world := by
  suffices every : (View.itemsOfAll (nodes.map .node) : LiveProgram γ τ _).Ensures (meaning host) level graph
      world fun items graph' world' => items = nodes.map .node ∧ graph' = graph ∧ world' = world from every
  induction nodes with
  | nil => exact ensures_pure ⟨rfl, rfl, rfl⟩
  | cons n _ ih =>
    refine seeing_then ?_
    refine (ih fun m mem => solid m (List.mem_cons_of_mem n mem)).bind ?_
    rintro _ _ _ ⟨rfl, rfl, rfl⟩
    refine ensures_pure ⟨?_, rfl, rfl⟩
    simp [solid n (by simp)]

variable {id : RegionId} {region : Region} {claim : ClaimId} {view : View γ}

theorem ensures_regionLives {pending : Option ClaimId} (found : world.regions[id]? = some ⟨region, pending⟩)
    (owned : region.owner = some owner) (alive : graph.ownerAlive owner = true) :
    (regionLives id : LiveProgram γ τ Bool).Ensures (meaning host) level graph world
      fun lives graph' world' => lives = true ∧ graph' = graph ∧ world' = world := by
  refine seeing_then ?_
  rw [found]
  show (stillOwned region.owner).Ensures _ level graph world _
  rw [owned]
  exact ensures_perform fun _ history _ => ⟨_, graph, world, history, rfl, alive, rfl, rfl⟩

theorem ensures_refresh (post : List Item → Graph (Procedure γ) Datum → World γ τ → Prop)
    (found : world.regions[id]? = some ⟨region, none⟩) (owned : region.owner = some owner)
    (items : view.items.Ensures (meaning host) level graph { world with frames := .fresh :: world.frames }
      fun items graph' world' => graph'.ownerAlive owner = true ∧ world'.regions[id]? = some ⟨region, none⟩ ∧
        post items graph' { world' with frames := world'.frames.drop 1 }) :
    (refresh id view).Ensures (meaning host) level graph world
      fun _ graph' world' => ∃ items before, post items graph' before ∧ world' = before.updated id region items := by
  refine changing_then ?_
  rw [found]
  show (inFrame .fresh view.items >>= _).Ensures _ level graph (world.taken id) _
  rw [taken_eq found]
  have framed : (inFrame .fresh view.items).Ensures (meaning host) level graph world
      fun items graph' world' => graph'.ownerAlive owner = true ∧ world'.regions[id]? = some ⟨region, none⟩ ∧
        post items graph' world' := ensures_inFrame items
  refine framed.bind ?_
  rintro items _ _ ⟨alive, same, holds⟩
  refine (ensures_regionLives same owned alive).bind ?_
  rintro _ _ _ ⟨rfl, rfl, rfl⟩
  refine ensures_changing ⟨items, _, holds, ?_⟩
  dsimp only
  rw [same]
  rfl

theorem ensures_refresh_claiming (post : List Item → Claim → Graph (Procedure γ) Datum → World γ τ → Prop)
    (found : world.regions[id]? = some ⟨region, some claim⟩) (owned : region.owner = some owner)
    (items : view.items.Ensures (meaning host) level graph
      { world.taken id with frames := .claiming claim :: world.frames }
      fun items graph' world' => graph'.ownerAlive owner = true ∧ world'.regions[id]? = some ⟨region, none⟩ ∧
        ∃ claimed, world'.claims[claim]? = some claimed ∧
          post items claimed graph' { world' with frames := world'.frames.drop 1 }) :
    (refresh id view).Ensures (meaning host) level graph world
      fun _ graph' world' => ∃ items claimed before, post items claimed graph' before ∧
        world' = before.adopted id region items claimed := by
  refine changing_then ?_
  rw [found]
  have framed : (inFrame (.claiming claim) view.items).Ensures (meaning host) level graph (world.taken id)
      fun items graph' world' => graph'.ownerAlive owner = true ∧ world'.regions[id]? = some ⟨region, none⟩ ∧
        ∃ claimed, world'.claims[claim]? = some claimed ∧ post items claimed graph' world' := ensures_inFrame items
  refine framed.bind ?_
  rintro items _ _ ⟨alive, same, claimed, taken, holds⟩
  refine (ensures_regionLives same owned alive).bind ?_
  rintro _ _ _ ⟨rfl, rfl, rfl⟩
  refine ensures_changing ⟨items, claimed, _, holds, ?_⟩
  dsimp only
  rw [same, taken]
  rfl

theorem answers_refresh (text : (View.ofDatum value : View γ) = .text data) (found : world.regions[id]? = some ⟨region, none⟩)
    (owned : region.owner = some root) :
    Answers (meaning host) 1 root owner cell value (.refresh id (.dynamic (.cell cell))) world
      fun world' => world' = world.updated id region [.text data] := by
  intro graph attends
  refine (ensures_refresh (fun items graph' world' => items = [.text data] ∧ graph' = graph.track cell ∧ world' = world)
    found owned ((ensures_items_cell attends text).mono ?_)).mono ?_
  · rintro _ _ _ ⟨rfl, rfl, rfl⟩
    exact ⟨attends.track.root_alive, found, rfl, rfl, rfl⟩
  · rintro _ _ _ ⟨_, _, ⟨rfl, rfl, rfl⟩, rfl⟩
    exact ⟨rfl, rfl⟩

theorem World.regions_taken (found : world.regions[id]? = some ⟨region, some claim⟩) :
    (world.taken id).regions[id]? = some ⟨region, none⟩ := by
  simp [taken, getElem?_modify, found]

theorem answers_refresh_claiming (text : (View.ofDatum value : View γ) = .text data)
    (found : world.regions[id]? = some ⟨region, some claim⟩) (owned : region.owner = some root)
    (claims : world.claims[claim]? = some claimed) :
    Answers (meaning host) 1 root owner cell value (.refresh id (.dynamic (.cell cell))) world
      fun world' => world' = (world.taken id).adopted id region [.text data] claimed := by
  intro graph attends
  refine (ensures_refresh_claiming
    (fun items taken graph' world' => items = [.text data] ∧ taken = claimed ∧ graph' = graph.track cell ∧
      world' = world.taken id)
    found owned ((ensures_items_cell attends text).mono ?_)).mono ?_
  · rintro _ _ _ ⟨rfl, rfl, rfl⟩
    exact ⟨attends.track.root_alive, regions_taken found, claimed, claims, rfl, rfl, rfl, rfl⟩
  · rintro _ _ _ ⟨_, _, _, ⟨rfl, rfl, rfl, rfl⟩, rfl⟩
    exact ⟨rfl, rfl⟩

end Tasks

section Mounting

variable {owner : OwnerId}

def World.mounted (world : World γ τ) (region : Region) (pending : Option ClaimId) : World γ τ :=
  { world with regions := world.regions.push ⟨region, pending⟩ }

def World.claiming (world : World γ τ) (claim : Claim) : World γ τ :=
  { world with claims := world.claims.push claim }

theorem World.taken_mounted (world : World γ τ) (region : Region) (claim : ClaimId) :
    (world.mounted region (some claim)).taken world.regions.size = world.mounted region none := by
  have same : (world.regions.push ⟨region, some claim⟩).modify world.regions.size ({ · with pending := none }) =
      world.regions.push ⟨region, none⟩ := by
    apply ext_getElem?
    intro i
    rw [getElem?_modify, getElem?_push, getElem?_push]
    by_cases here : i = world.regions.size
    · simp [here]
    · have apart : ¬ world.regions.size = i := fun same => here same.symm
      simp [here, apart]
  rw [taken, mounted, mounted, same]

theorem World.regions_mounted (world : World γ τ) (region : Region) (pending : Option ClaimId) :
    (world.mounted region pending).regions[world.regions.size]? = some ⟨region, pending⟩ := by
  simp [mounted]

variable {root : OwnerId} {cleanups : List (Procedure γ Unit)} {values : CellId → Option Datum}
  {watches : List (Watch (Procedure γ))} {cell : CellId} {value : Datum} {data : String}

def Joined (graph : Graph (Procedure γ) Datum) (root : OwnerId) (cleanups : List (Procedure γ Unit))
    (values : CellId → Option Datum) (watches : List (Watch (Procedure γ))) (cell : CellId) (task : Procedure γ Unit)
    (graph' : Graph (Procedure γ) Datum) : Prop :=
  Wired graph' root cleanups values (watches ++ [⟨graph.nextId, cell, task⟩]) ∧ AtRest graph' (some root)

/-- The program shows a source in a region of its own: what the first showing makes of `shown` is left in the end. -/
def Introduces (host : Host γ τ) (graph : Graph (Procedure γ) Datum) (root : OwnerId) (cleanups : List (Procedure γ Unit))
    (values : CellId → Option Datum) (watches : List (Watch (Procedure γ))) (cell : CellId) (value : Datum) (source : Source γ)
    (program : LiveProgram γ τ Unit) (world shown : World γ τ) : Prop :=
  ∀ {post : World γ τ → Prop}, Answers (meaning host) 1 root graph.nextId cell value
      (.refresh world.regions.size (.dynamic source)) shown post →
    program.Ensures (meaning host) 3 graph world fun _ graph' world' =>
      Joined graph root cleanups values watches cell (.refresh world.regions.size (.dynamic source)) graph' ∧ post world'

section

variable (wired : Wired graph root cleanups values watches) (rest : AtRest graph (some root))
  (held : values cell = some value)

variable {marker parent : NodeId}
include wired rest held

theorem ensures_bindTo (fits : value.fitsAttribute) (n : NodeId) (binding : Binding) :
    (bindTo n binding (.dynamic (.cell cell))).Ensures (meaning host) 3 graph world fun _ graph' world' =>
      Joined graph root cleanups values watches cell (.bind n binding (.cell cell)) graph' ∧
        world' = { world with document := binding.apply n value.attribute? world.document } := by
  refine (ensures_newEffect wired rest held (answers_bind fits n binding world)).bind ?_
  rintro _ _ _ ⟨joined, resting, _, rfl⟩
  exact ensures_pure ⟨⟨joined, resting⟩, rfl⟩

variable {source : Source γ}

theorem introduces_mount (region : Region) (pending : Option ClaimId) :
    Introduces host graph root cleanups values watches cell value source (mount region (.dynamic source) pending) world
      (world.mounted { region with owner := some root } pending) := by
  intro post answers
  refine currentOwner_then (changing_then ?_)
  rw [rest.owner_eq]
  refine (ensures_newEffect wired rest held answers).bind ?_
  rintro _ _ _ ⟨joined, resting, _, holds⟩
  exact ensures_pure ⟨⟨joined, resting⟩, holds⟩

theorem introduces_insert (idle : world.isHydrating = false) (parent : NodeId) :
    Introduces host graph root cleanups values watches cell value source (insert parent (.dynamic source) none) world
      (world.mounted { parent, owner := some root } none) := by
  intro post answers
  refine seeing_then ?_
  rw [idle]
  exact introduces_mount wired rest held { parent } none answers

theorem introduces_insert_claiming (hydrating : world.isHydrating = true) (parent : NodeId) :
    Introduces host graph root cleanups values watches cell value source (insert parent (.dynamic source) none) world
      ((world.claiming (Claim.ofParent world.document parent)).mounted { parent, owner := some root }
        (some world.claims.size)) := by
  intro post answers
  refine seeing_then ?_
  rw [hydrating]
  refine seeing_then (changing_then ?_)
  show (mount _ _ _).Ensures _ 3 graph (world.claiming (Claim.ofParent world.document parent)) _
  exact introduces_mount wired rest held { parent } (some world.claims.size) answers

theorem introduces_insertAtMarker (idle : world.isHydrating = false)
    (above : world.document.parent? marker = some parent) :
    Introduces host graph root cleanups values watches cell value source (insertAtMarker marker (.dynamic source)) world
      (world.mounted { parent, start := some marker, owner := some root } none) := by
  intro post answers
  refine seeing_then ?_
  beta_reduce
  rw [above]
  refine seeing_then ?_
  rw [idle]
  exact introduces_mount wired rest held { parent, start := some marker } none answers

theorem introduces_insertAtMarker_claiming (hydrating : world.isHydrating = true)
    (above : world.document.parent? marker = some parent) {claim : Claim}
    (closed : Claim.ofMarker? world.document marker = some claim) :
    Introduces host graph root cleanups values watches cell value source (insertAtMarker marker (.dynamic source)) world
      ((world.claiming claim).mounted { parent, start := some marker, owner := some root } (some world.claims.size)) := by
  intro post answers
  refine seeing_then ?_
  beta_reduce
  rw [above]
  refine seeing_then ?_
  rw [hydrating]
  refine seeing_then ?_
  beta_reduce
  rw [closed]
  refine changing_then ?_
  show (mount _ _ _).Ensures _ 3 graph (world.claiming claim) _
  exact introduces_mount wired rest held { parent, start := some marker } (some world.claims.size) answers

end

theorem answers_mounted {root : OwnerId} (text : (View.ofDatum value : View γ) = .text data) (region : Region)
    (owned : region.owner = some root) :
    Answers (meaning host) 1 root owner cell value (.refresh world.regions.size (.dynamic (.cell cell)))
      (world.mounted region none)
      fun world' => world' = (world.mounted region none).updated world.regions.size region [.text data] :=
  answers_refresh text (regions_mounted world region none) owned

theorem answers_mounted_claiming {root : OwnerId} (text : (View.ofDatum value : View γ) = .text data) (region : Region)
    (owned : region.owner = some root) (claim : Claim) :
    Answers (meaning host) 1 root owner cell value (.refresh world.regions.size (.dynamic (.cell cell)))
      ((world.claiming claim).mounted region (some world.claims.size))
      fun world' => world' =
        ((world.claiming claim).mounted region none).adopted world.regions.size region [.text data] claim := by
  have known : ((world.claiming claim).mounted region (some world.claims.size)).claims[world.claims.size]? = some claim := by
    simp [claiming, mounted]
  have answers : Answers (meaning host) 1 root owner cell value _ _ _ :=
    answers_refresh_claiming text (regions_mounted (world.claiming claim) region (some world.claims.size)) owned known
  rw [taken_mounted] at answers
  exact answers

end Mounting

section Fixed

/-- A view that shows the same items whenever it is asked over a document, and changes nothing. -/
structure Fixed (host : Host γ τ) (doc : Document γ Property) (view : View γ) (items : List Item) : Prop where
  still : view.isReactive = false
  items_eq : ∀ graph (world : World γ τ), world.document = doc →
    view.items.Ensures (Procedure.meaning host) 0 graph world fun shown graph' world' =>
      shown = items ∧ graph' = graph ∧ world' = world

theorem fixed_text (doc : Document γ Property) (data : String) : Fixed host doc (.text data) [.text data] :=
  ⟨rfl, fun _ _ _ => ensures_pure ⟨rfl, rfl, rfl⟩⟩

theorem fixed_node {doc : Document γ Property} {n : NodeId} (solid : doc.isFragment n = false) :
    Fixed host doc (.node n) [.node n] := by
  refine ⟨rfl, ?_⟩
  rintro _ _ rfl
  refine ensures_changing ⟨?_, rfl, rfl⟩
  simp [solid]

variable {owner : OwnerId} {view : View γ} {items : List Item}
  (fixed : Fixed host world.document view items) (under : graph.owner = some owner) (alive : graph.ownerAlive owner = true)
include fixed under alive

theorem ensures_mount_fixed (region : Region) :
    (mount region view none).Ensures (meaning host) level graph world fun _ graph' world' =>
      graph' = graph ∧ world' = (world.mounted { region with owner := some owner } none).updated world.regions.size
        { region with owner := some owner } items := by
  refine currentOwner_then (changing_then ?_)
  rw [under, fixed.still]
  refine ensures_untracked ?_
  refine (ensures_refresh (fun shown graph' world' => shown = items ∧ graph' = { graph with observer := none } ∧
      world' = world.mounted { region with owner := some owner } none)
    (regions_mounted world { region with owner := some owner } none) rfl
    (((fixed.items_eq _ _ (by rfl)).raise (Nat.zero_le level)).mono ?_)).mono ?_
  · rintro _ _ _ ⟨rfl, rfl, rfl⟩
    exact ⟨alive, regions_mounted world { region with owner := some owner } none, rfl, rfl, rfl⟩
  · rintro _ _ _ ⟨_, _, ⟨rfl, rfl, rfl⟩, rfl⟩
    exact ⟨rfl, rfl⟩

theorem ensures_mount_fixed_claiming (region : Region) {claim : ClaimId}
    (claims : world.claims[claim]? = some claimed) :
    (mount region view (some claim)).Ensures (meaning host) level graph world fun _ graph' world' =>
      graph' = graph ∧ world' = (world.mounted { region with owner := some owner } none).adopted world.regions.size
        { region with owner := some owner } items claimed := by
  refine currentOwner_then (changing_then ?_)
  rw [under, fixed.still]
  refine ensures_untracked ?_
  have pending := regions_mounted world { region with owner := some owner } (some claim)
  have taken := taken_mounted world { region with owner := some owner } claim
  refine (ensures_refresh_claiming (fun shown given graph' world' => shown = items ∧ given = claimed ∧
      graph' = { graph with observer := none } ∧ world' = world.mounted { region with owner := some owner } none)
    pending rfl (((fixed.items_eq _ _ (by rfl)).raise (Nat.zero_le level)).mono ?_)).mono ?_
  · rintro _ _ _ ⟨rfl, rfl, rfl⟩
    exact ⟨alive, regions_taken pending, claimed, claims, rfl, rfl, rfl, taken⟩
  · rintro _ _ _ ⟨_, _, _, ⟨rfl, rfl, rfl, rfl⟩, rfl⟩
    exact ⟨rfl, rfl⟩

theorem ensures_insert_fixed (idle : world.isHydrating = false) (parent : NodeId) :
    (insert parent view none).Ensures (meaning host) level graph world fun _ graph' world' =>
      graph' = graph ∧ world' = (world.mounted { parent, owner := some owner } none).updated world.regions.size
        { parent, owner := some owner } items := by
  refine seeing_then ?_
  rw [idle]
  exact ensures_mount_fixed fixed under alive { parent }

theorem ensures_insert_fixed_claiming (hydrating : world.isHydrating = true) (parent : NodeId) :
    (insert parent view none).Ensures (meaning host) level graph world fun _ graph' world' =>
      graph' = graph ∧ world' = ((world.claiming (Claim.ofParent world.document parent)).mounted
        { parent, owner := some owner } none).adopted world.regions.size { parent, owner := some owner } items
        (Claim.ofParent world.document parent) := by
  refine seeing_then ?_
  rw [hydrating]
  refine seeing_then (changing_then ?_)
  have claims : (world.claiming (Claim.ofParent world.document parent)).claims[world.claims.size]? =
      some (Claim.ofParent world.document parent) := by simp [claiming]
  have same : Fixed host (world.claiming (Claim.ofParent world.document parent)).document view items := fixed
  exact ensures_mount_fixed_claiming same under alive { parent } claims

end Fixed

end LiveMarkup.Live
