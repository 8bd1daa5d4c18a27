import LiveMarkup.Proofs.CurrentViews

/-!
Views that components give. A component is asked once, when it is first shown, and what it gives is shown once: its
region is not reactive, whatever getters there are in the view. While signals are written the region of the view itself
follows them, and the region of the component keeps what the view resolved to at first.
-/

namespace LiveMarkup.Live
open Document Reactive Program Procedure

variable {γ τ : Type} {host : Host γ τ} {start world : World γ τ} {graph : Graph (Procedure γ) Datum} {scope : OwnerId}
  {values : CellId → Datum} {view : View γ} {code : γ} {items : List Item} {cells : List CellId} {lazy : LazyId} {level : Nat}
  {holds : World γ τ → Prop} {page : Scene (Procedure γ) (World γ τ) Datum} {mount : Mount γ}

def World.asking (world : World γ τ) (lazy : LazyId) : World γ τ :=
  { world with lazies := world.lazies.modify lazy ({ · with code := none }) }

def World.answered (world : World γ τ) (lazy : LazyId) (view : View γ) : World γ τ :=
  { world with lazies := world.lazies.modify lazy ({ · with value := some view }) }

theorem ensures_force (post : View γ → Graph (Procedure γ) Datum → World γ τ → Prop)
    (found : world.lazies[lazy]? = some { code := some code, owner := some scope })
    (asked : (host.view code).Ensures (meaning host) level { graph with owner := some scope, observer := none }
      (world.asking lazy) fun shown graph' world' =>
        post shown { graph' with owner := graph.owner, observer := graph.observer } world') :
    (force lazy).Ensures (meaning host) (level + 1) graph world fun shown graph' world' =>
      ∃ before, post shown graph' before ∧ world' = before.answered lazy shown := by
  have called : (ownedBy scope (call (.view (.code code)))).Ensures (meaning host) (level + 1) graph
      (world.asking lazy) post := ensures_ownedBy (ensures_call asked)
  refine seeing_then ?_
  rw [found]
  refine altering_then (called.bind ?_)
  intro shown graph' before holds
  exact altering_then (ensures_pure ⟨before, holds, rfl⟩)

theorem ensures_items_deferred (found : world.lazies[lazy]? = some { code := some code, owner := some scope })
    (gives : host.view code = pure view) (resolves : Resolves host holds values view items cells)
    (steady : holds ((world.asking lazy).answered lazy view)) (shows : graph.Shows values)
    (alive : ∀ c ∈ cells, graph.cellAlive c = true) :
    ∃ level, (View.items (.deferred lazy)).Ensures (meaning host) level graph world fun shown graph' world' =>
      shown = items ∧ graph' = graph.trackAll cells ∧ world' = (world.asking lazy).answered lazy view := by
  obtain ⟨level, read⟩ := resolves.reads.ensures steady shows alive
  have asked : (force lazy).Ensures (meaning host) (level + 1) graph world fun shown graph' world' =>
      ∃ before, (shown = view ∧ graph' = graph ∧ before = world.asking lazy) ∧ world' = before.answered lazy shown := by
    refine ensures_force (fun shown graph' before => shown = view ∧ graph' = graph ∧ before = world.asking lazy) found ?_
    rw [gives]
    exact ensures_pure ⟨rfl, rfl, rfl⟩
  refine ⟨level + 1, asked.bind ?_⟩
  rintro _ _ _ ⟨_, ⟨rfl, rfl, rfl⟩, rfl⟩
  exact ensures_call read

section Showing

theorem Graph.trackAll_unobserved (unobserved : graph.observer = none) (cells : List CellId) :
    graph.trackAll cells = graph := by
  induction cells with
  | nil => rfl
  | cons cell cells ih =>
    have first : graph.track cell = graph := by simp [Graph.track, unobserved]
    rw [show graph.trackAll (cell :: cells) = (graph.track cell).trackAll cells from rfl, first, ih]

theorem ensures_refresh_component {id : RegionId} {region : Region} (found : world.regions[id]? = some ⟨region, none⟩)
    (owned : region.owner = some scope) (offered : world.lazies[lazy]? = some { code := some code, owner := some scope })
    (gives : host.view code = pure view) (resolves : Resolves host holds values view items cells)
    (framed : holds { (world.asking lazy).answered lazy view with frames := .fresh :: world.frames })
    (shows : graph.Shows values) (known : ∀ c ∈ cells, graph.cellAlive c = true) (alive : graph.ownerAlive scope = true) :
    ∃ level, (untracked (refresh id (.deferred lazy))).Ensures (meaning host) level graph world
      fun _ graph' world' => graph' = graph ∧ world' = ((world.asking lazy).answered lazy view).updated id region items := by
  have unobserved : ({ graph with observer := none } : Graph (Procedure γ) Datum).trackAll cells =
      { graph with observer := none } := Graph.trackAll_unobserved rfl cells
  have shows' : ({ graph with observer := none } : Graph (Procedure γ) Datum).Shows values := shows
  have offered' : ({ world with frames := .fresh :: world.frames } : World γ τ).lazies[lazy]? =
      some { code := some code, owner := some scope } := offered
  obtain ⟨level, asked⟩ := ensures_items_deferred offered' gives resolves framed shows' known
  refine ⟨level, ensures_untracked ((ensures_refresh (fun shown graph' before => shown = items ∧
    graph' = { graph with observer := none } ∧ before = (world.asking lazy).answered lazy view) found owned (asked.mono ?_)).mono ?_)⟩
  · rintro _ _ _ ⟨rfl, rfl, rfl⟩
    rw [unobserved]
    exact ⟨alive, found, rfl, rfl, rfl⟩
  · rintro _ _ _ ⟨_, _, ⟨rfl, rfl, rfl⟩, rfl⟩
    exact ⟨rfl, rfl⟩

def World.offering (world : World γ τ) (code : γ) (scope : OwnerId) : World γ τ :=
  { world with lazies := world.lazies.push { code := some code, owner := some scope } }

theorem ensures_deferred (under : graph.owner = some scope) :
    (deferred code : LiveProgram γ τ (View γ)).Ensures (meaning host) level graph world
      fun shown graph' world' =>
        shown = .deferred world.lazies.size ∧ graph' = graph ∧ world' = world.offering code scope := by
  refine currentOwner_then ?_
  rw [under]
  exact ensures_changing ⟨rfl, rfl, rfl⟩

theorem attains_mount_component (gives : host.view code = pure mount.view) (idle : start.isHydrating = false)
    (poised : page.Poised (meaning host) values graph start) (suits : mount.Suits host page graph start)
    (resolves : Resolves host page.holds values mount.view items cells) (known : ∀ c ∈ cells, page.layout.cells c = true)
    (apt : mount.Apt start.document items) :
    (ownedBy mount.scope (do mount.spot.mount (← deferred code)) : LiveProgram γ τ Unit).Attains (meaning host) graph start
      fun _ graph' world' => graph' = graph ∧ page.Bears start world' ∧ mount.Stays start world' ∧
        Displays start.regions.size items world' := by
  have underway := poised.underway
  have offers : (deferred code : LiveProgram γ τ (View γ)).Attains (meaning host)
      { graph with owner := some mount.scope, observer := none } start fun shown graph' world' =>
        shown = .deferred start.lazies.size ∧ graph' = { graph with owner := some mount.scope, observer := none } ∧
          world' = start.offering code mount.scope :=
    Ensures.attains 0 (ensures_deferred rfl) ⟨rfl, rfl, rfl⟩
  refine attains_ownedBy (offers.bind ?_)
  rintro _ _ _ ⟨rfl, rfl, rfl⟩
  refine attains_spot idle suits.standing (currentOwner_attains (changing_attains ?_))
  rw [if_neg (by simp [View.isReactive])]
  -- the lazy view is new, and nothing else that is lazy is asked
  have same : ∀ l < start.lazies.size, (((start.offering code mount.scope).asking start.lazies.size).answered
      start.lazies.size mount.view).lazies[l]? = start.lazies[l]? := by
    intro l bound
    simp [World.answered, World.asking, World.offering, Array.getElem?_modify, Array.getElem?_push, bound.ne, bound.ne']
  have offered : ((start.offering code mount.scope).mounted mount.region none).lazies[start.lazies.size]? =
      some { code := some code, owner := some mount.scope } := Array.getElem?_push_size
  have mounted := suits.bears start _ underway.stays suits.homed (mount.renews_mounted start same)
  have framed := suits.framed _ (poised.sound.steady _ (mounted.stays underway.stays))
  have shows : ({ graph with owner := some mount.scope, observer := none } : Graph (Procedure γ) Datum).Shows values :=
    underway.woven.shows
  obtain ⟨level, ran⟩ := ensures_refresh_component (World.regions_mounted (start.offering code mount.scope) mount.region none)
    rfl offered gives resolves framed shows (fun c mem => (underway.woven.cellAlive c).trans (known c mem)) suits.alive
  refine Ensures.attains_done level ran ?_
  exact ⟨rfl, suits.shown_once underway.stays apt same⟩

end Showing

/-- A view is mounted for a scope of a page, and a component that gives it is mounted in its stead. However signals are
written, the view shows what it resolves to now, and the component what the view resolved to when it was first shown. The two
agree as long as the view resolves to the same. -/
theorem component_keeps_first_showing (gives : host.view code = pure mount.view)
    (poised : page.Poised (Procedure.meaning host) values graph world) (idle : world.isHydrating = false)
    (suits : mount.Suits host page graph world) (writes : Writes Datum) (fit : writes.Fit page.layout page.fits) :
    ∃ first, (∃ cells, Resolves host page.holds values mount.view first cells) ∧
      (do
        Program.ownedBy mount.scope do mount.spot.mount (← deferred code)
        writes.program : LiveProgram γ τ Unit).Attains (Procedure.meaning host) graph world
          (fun _ _ world' => mount.InSpot world.document first world'.document) ∧
      (do
        Program.ownedBy mount.scope (mount.spot.mount mount.view)
        writes.program : LiveProgram γ τ Unit).Attains (Procedure.meaning host) graph world
          fun _ graph' world' => mount.Current host page world.document (writes.apply values) graph' world' := by
  obtain ⟨first, cells, resolves, known, apt⟩ := suits.mountable values (poised.agrees _)
  refine ⟨first, ⟨cells, resolves⟩, ?_, ?_⟩
  · refine (attains_mount_component gives idle poised suits resolves known apt).bind ?_
    rintro _ _ world' ⟨rfl, bears, stays, shown⟩
    -- the region is only watched by what leaves it alone
    have kept := poised.kept (fun world world' stays mine changed => suits.keeps_shown stays mine changed) bears ⟨stays, shown⟩
    refine (kept.write writes fit).mono ?_
    rintro _ _ _ ⟨_, placed, _⟩
    obtain ⟨_, stays, shown⟩ := placed.underway.stays
    exact shown.inSpot stays
  · refine (attains_mounted poised suits idle).bind fun _ graph' world' upheld => ?_
    exact (upheld.write poised writes fit).mono fun _ _ _ still => still.current poised suits

/-- The sign is shut: the sign itself says so, and a component that gives it still shows the element. -/
theorem component_keeps_first_showing_sign : (do
      Program.ownedBy 1 do sign.spot.mount (← deferred SignCode.whole)
      (Writes.set 2 (.bool true)).program : LiveProgram SignCode Nat Unit).Attains (Procedure.meaning signHost) signGraph
        signWorld (fun _ _ world => sign.InSpot signWorld.document [.text "now ", .node 5] world.document) ∧
      (do
        Program.ownedBy 1 (sign.spot.mount sign.view)
        (Writes.set 2 (.bool true)).program : LiveProgram SignCode Nat Unit).Attains (Procedure.meaning signHost) signGraph
          signWorld fun _ _ world => sign.InSpot signWorld.document [.text "now ", .text "closed"] world.document := by
  have gives : signHost.view .whole = pure sign.view := rfl
  have suits : sign.Suits signHost signPage signGraph signWorld := suits_sign rfl (by decide) (.refl _) standing_sign
  have fit : (Writes.set 2 (.bool true)).Fit signPage.layout signPage.fits := ⟨isSignal_sign, _, rfl⟩
  obtain ⟨first, ⟨cells, resolves⟩, component, direct⟩ := component_keeps_first_showing gives poised_sign rfl suits
    (.set 2 (.bool true)) fit
  have begins : signPage.holds signWorld := .refl _
  have current : UpToDate (meaning signHost) signPage.holds openSign 3 (.datum (.code .opposite)) :=
    ⟨_, _, reads_datum_sign rfl, .inl rfl⟩
  obtain ⟨rfl, -⟩ := resolves.reads.unique begins (resolves_sign rfl current).reads
  refine ⟨component, direct.mono ?_⟩
  rintro _ graph world ⟨now, items, _, signals, computed, ⟨read, resolves⟩, _, inSpot, _⟩
  have held : now 2 = .bool true := signals 2 rfl isSignal_sign
  obtain ⟨rfl, -⟩ := resolves.reads.unique begins (resolves_sign held (computed 3 _ rfl)).reads
  exact inSpot

/-- Code is a cell, and a component of it gives a getter of the cell. -/
def echoHost : Host CellId Unit where
  view cell := return .dynamic (.cell cell)
  attributeText _ := return none
  datum cell := Program.get true cell
  act _ := return
  handle _ _ := return

def echo : LiveProgram CellId Unit Unit := do
  let signal ← Program.perform (.newSignal (.string "1"))
  let _ ← Program.underRoot (insert 0 (.dynamic (.cell signal)) none)
  let _ ← Program.underRoot (do insert 1 (← deferred signal) none)
  Program.perform (.write signal (.string "2"))

def textsOf (doc : Document CellId Property) : List (List String) :=
  [(doc.children 0).map doc.data, (doc.children 1).map doc.data]

/-- After a write the getter shows the new value and the component the old one. -/
theorem component_of_getter_falls_behind : let world : World CellId Unit :=
      { document := { nodes := #[{ kind := .element "p" false }, { kind := .element "p" false }] }, host := () }
    (match run echoHost echo { outside := world } with
      | .ok _ after => some (textsOf after.outside.document)
      | .error .. => none) = some [["2"], ["1"]] := by
  decide +kernel

end LiveMarkup.Live
