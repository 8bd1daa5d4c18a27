import LiveMarkup.Proofs.Mounts

/-!
Mounted views stay current. While signals are written, the region of a view shows what the view resolves to on the values
at hand, and its siblings stand as they stood, whatever else the page reacts with elsewhere; when the scope of the view is
gone, the region stays as it is.
-/

namespace LiveMarkup.Live
open Document Reactive List Option Procedure Program Graph

variable {γ τ : Type} {host : Host γ τ} {start world world' : World γ τ} {values : CellId → Datum}
  {graph graph' : Graph (Procedure γ) Datum} {items : List Item} {cells : List CellId} {id : RegionId} {region : Region}
  {holds : World γ τ → Prop} {page rest : Scene (Procedure γ) (World γ τ) Datum} {mount : Mount γ}
  {gone : List OwnerId} {dropped : List CellId} {tasks : List (Procedure γ Unit)} {level : Nat}

section Refreshing

variable {spot : Spot} {left right : List NodeId} {view : View γ} {scope : OwnerId}

def Displays (id : RegionId) (items : List Item) (world : World γ τ) : Prop :=
  ∃ region, world.regions[id]? = some ⟨region, none⟩ ∧ Forall₂ (ShowsItem world.document) (mergeItems items) region.current

/-- The region of a mount shows what its view resolves to on these values. -/
def Mount.Serves (mount : Mount γ) (host : Host γ τ) (holds : World γ τ → Prop) (id : RegionId) (values : CellId → Datum)
    (world : World γ τ) : Prop :=
  ∃ items cells, Resolves host holds values mount.view items cells ∧ Displays id items world

theorem Mount.Heeds.displays (heeds : mount.Heeds start.regions.size world world') (stays : mount.Stays start world)
    (shown : Displays start.regions.size items world) : Displays start.regions.size items world' := by
  obtain ⟨_, homed, region, found, inPlace⟩ := stays
  obtain ⟨region', found', shows⟩ := shown
  obtain rfl : region = region' := congrArg Mounted.region (some.inj (found.symm.trans found'))
  exact ⟨region, heeds.region_eq.trans found, heeds.shows homed inPlace shows⟩

theorem Mount.Heeds.serves (heeds : mount.Heeds start.regions.size world world') (stays : mount.Stays start world)
    (serves : mount.Serves host holds start.regions.size values world) :
    mount.Serves host holds start.regions.size values world' := by
  obtain ⟨items, cells, resolves, shown⟩ := serves
  exact ⟨items, cells, resolves, heeds.displays stays shown⟩

theorem Displays.inSpot (shown : Displays start.regions.size items world) (stays : mount.Stays start world) :
    mount.InSpot start.document items world.document := by
  obtain ⟨_, _, region, found, inPlace⟩ := stays
  obtain ⟨region', found', shows⟩ := shown
  obtain rfl : region = region' := congrArg Mounted.region (some.inj (found.symm.trans found'))
  exact inPlace.inSpot shows

theorem ensures_refresh_resolved (resolves : Resolves host holds values view items cells)
    (known : ∀ c ∈ cells, graph.cellAlive c = true) (shows : graph.Shows values) (alive : graph.ownerAlive scope = true)
    (framed : holds { world with frames := .fresh :: world.frames }) (found : world.regions[id]? = some ⟨region, none⟩)
    (owned : region.owner = some scope) :
    ∃ level, (refresh id view).Ensures (meaning host) level graph world fun _ graph' world' =>
      graph' = graph.trackAll cells ∧ world' = world.updated id region items := by
  obtain ⟨level, read⟩ := resolves.reads.ensures framed shows known
  have alive' : (graph.trackAll cells).ownerAlive scope = true := by
    rw [ownerAlive_eq, layout_trackAll, ← ownerAlive_eq]
    exact alive
  refine ⟨level, (ensures_refresh (fun shown graph' world' => shown = items ∧ graph' = graph.trackAll cells ∧ world' = world)
    found owned (read.mono ?_)).mono ?_⟩
  · rintro _ _ _ ⟨rfl, rfl, rfl⟩
    exact ⟨alive', found, rfl, rfl, rfl⟩
  · rintro _ _ _ ⟨_, _, ⟨rfl, rfl, rfl⟩, rfl⟩
    exact ⟨rfl, rfl⟩

theorem attains_spot {post : Graph (Procedure γ) Datum → World γ τ → Prop} (idle : world.isHydrating = false)
    (standing : StandsBetween world.document spot.region left right)
    (mounts : (Live.mount spot.region view none).Attains (meaning host) graph world fun _ => post) :
    (spot.mount view).Attains (meaning host) graph world fun _ => post := by
  cases spot with
  | last | before =>
    refine seeing_attains ?_
    rw [idle]
    exact mounts
  | behind parent marker =>
    have above : world.document.parent? marker = some parent :=
      standing.lists.parents marker (by simp [Spot.region])
    refine seeing_attains ?_
    beta_reduce
    rw [above]
    refine seeing_attains ?_
    rw [idle]
    exact mounts

end Refreshing

section Suiting

/-- Whatever signals hold, the view of a mount resolves to nodes that can be shown there, and reads cells that are there. -/
def Mount.Mountable (mount : Mount γ) (host : Host γ τ) (page : Scene (Procedure γ) (World γ τ) Datum)
    (first : Document γ Property) (bound : OwnerId) : Prop :=
  ∀ values, Agrees (Procedure.meaning host) page.holds page.fits page.layout bound values →
    ∃ items cells, Resolves host page.holds values mount.view items cells ∧ (∀ c ∈ cells, page.layout.cells c = true) ∧
      mount.Apt first items

/-- There is a place for a mount on a page. What else happens on the page does not touch its region, and what its region
shows spoils nothing on the page. -/
structure Mount.Suits (mount : Mount γ) (host : Host γ τ) (page : Scene (Procedure γ) (World γ τ) Datum)
    (graph : Graph (Procedure γ) Datum) (start : World γ τ) : Prop where
  alive : graph.ownerAlive mount.scope = true
  inert : ¬ page.Reacts mount.scope
  standing : StandsBetween start.document mount.spot.region mount.left mount.right
  own : ∀ n ∈ mount.own, n < start.document.nodes.size
  mountable : mount.Mountable host page start.document graph.nextId
  framed : ∀ world, page.holds world → page.holds { world with frames := .fresh :: world.frames }
  heeds : ∀ world world', page.stays world → mount.Homed start.document world.document → page.changes world world' →
    mount.Heeds start.regions.size world world'
  bears : ∀ world world', page.stays world → mount.Homed start.document world.document →
    mount.Renews start.regions.size world world' → page.Bears world world'

/-- A page with a mount on it: while its view is reactive there is an effect that sees to it. -/
def Mount.upon (mount : Mount γ) (host : Host γ τ) (page : Scene (Procedure γ) (World γ τ) Datum) (start : World γ τ)
    (effect : OwnerId) : Scene (Procedure γ) (World γ τ) Datum :=
  if mount.view.isReactive then
    (page.kept (mount.Stays start)).watched ⟨effect, .refresh start.regions.size mount.view,
      mount.Serves host page.holds start.regions.size⟩ (mount.Renews start.regions.size)
  else page.kept fun world => mount.Stays start world ∧ ∀ values, mount.Serves host page.holds start.regions.size values world

theorem Mount.Suits.homed (suits : mount.Suits host page graph start) : mount.Homed start.document start.document :=
  .begin suits.standing suits.own

theorem Mount.Suits.updated (suits : mount.Suits host page graph start) (stays : page.stays world)
    (faithful : Faithful start.document world.document) (homed : mount.Homed start.document world.document)
    (found : world.regions[start.regions.size]? = some ⟨region, none⟩)
    (inPlace : mount.InPlace start.document world.document region) (apt : mount.Apt start.document items) :
    let shown := world.updated start.regions.size region items
    mount.Renews start.regions.size world shown ∧ page.Bears world shown ∧ mount.Stays start shown ∧
      Displays start.regions.size items shown := by
  intro shown
  have updated := inPlace.standing.update (inPlace.showable faithful apt)
  have renews := inPlace.renews faithful apt start.regions.size
  have there := World.regions_updated found region items
  exact ⟨renews, suits.bears world shown stays homed renews, ⟨faithful.trans renews.faithful, inPlace.homed faithful apt homed,
    _, there, inPlace.updated updated⟩, _, there, updated.shows⟩

variable (poised : page.Poised (Procedure.meaning host) values graph start) (suits : mount.Suits host page graph start)
include poised suits

omit poised in
theorem Mount.Suits.keeps (world world' : World γ τ) (stays : page.stays world) (mine : mount.Stays start world)
    (changed : page.changes world world') : mount.Stays start world' :=
  (suits.heeds world world' stays mine.2.1 changed).stays mine

omit poised in
theorem Mount.Suits.keeps_shown (stays : page.stays world) (mine : mount.Stays start world ∧ Displays start.regions.size items world)
    (changed : page.changes world world') : mount.Stays start world' ∧ Displays start.regions.size items world' := by
  have heeds := suits.heeds world world' stays mine.1.2.1 changed
  exact ⟨heeds.stays mine.1, heeds.displays mine.1 mine.2⟩

theorem Mount.Suits.sound (reactive : mount.view.isReactive = true) :
    (mount.upon host page start graph.nextId).Sound (Procedure.meaning host) := by
  have fresh := poised.fresh
  rw [Mount.upon, if_pos reactive]
  refine (poised.sound.kept suits.keeps).watched fresh (fun world world' stays changed values serves => ?_)
    fun values world stays agrees => ?_
  · exact (suits.heeds world world' stays.1 stays.2.2.1 changed).serves stays.2 serves
  · obtain ⟨keeps, faithful, homed, region, there, inPlace⟩ := stays
    obtain ⟨items, cells, resolves, known, apt⟩ := suits.mountable values ((agrees_add fresh).mp agrees)
    obtain ⟨renews, bears, stays, shown⟩ := suits.updated keeps faithful homed there inPlace apt
    have alive : ∀ c ∈ cells, graph.cellAlive c = true := fun c mem => by
      rw [poised.underway.woven.cellAlive]
      exact known c mem
    refine ⟨cells, world.updated start.regions.size region items, fun c mem =>
      ⟨poised.numbered.cells c (alive c mem), known c mem⟩, ⟨bears.stays keeps, stays⟩, .inr renews,
      fun other same => ⟨items, cells, resolves.congr same, shown⟩, ?_, fun after has shows => ?_⟩
    · rintro v (rfl | watches) apart
      · exact absurd rfl apart
      · exact bears.serves v watches
    · have scope : after.ownerAlive mount.scope = true := by
        refine has.owners mount.scope ?_
        have apart : mount.scope ≠ graph.nextId := (poised.numbered.owners _ suits.alive).ne
        have there := suits.alive
        rw [poised.underway.woven.ownerAlive] at there
        simpa [Scene.watched, Scene.kept, Layout.add, apart] using there
      exact ensures_refresh_resolved resolves (fun c mem => has.cells c (known c mem)) shows scope
        (suits.framed world (poised.sound.steady world keeps)) there (by rw [inPlace.region_eq]; rfl)

end Suiting

section Upon

variable {effect : OwnerId}

theorem Mount.upon_holds : (mount.upon host page start effect).holds = page.holds := by
  unfold upon
  split <;> rfl

theorem Mount.upon_fits : (mount.upon host page start effect).fits = page.fits := by
  unfold upon
  split <;> rfl

theorem Mount.upon_cells : (mount.upon host page start effect).layout.cells = page.layout.cells := by
  unfold upon
  split <;> rfl

theorem Mount.upon_computes (fresh : page.layout.bodies effect = none) (cell : CellId) (task : Procedure γ Datum) :
    (mount.upon host page start effect).layout.Computes cell task ↔ page.layout.Computes cell task := by
  unfold upon
  split
  · exact Layout.computes_add fresh
  · rfl

theorem Mount.upon_watchers : page.watchers ⊆ (mount.upon host page start effect).watchers := by
  unfold upon
  split
  · exact Set.subset_insert ..
  · rfl

theorem Mount.upon_watches (reactive : mount.view.isReactive = true) :
    ⟨effect, .refresh start.regions.size mount.view, mount.Serves host page.holds start.regions.size⟩ ∈
      (mount.upon host page start effect).watchers := by
  rw [upon, if_pos reactive]
  exact .inl rfl

theorem Mount.upon_stays (stays : (mount.upon host page start effect).stays world) : page.stays world ∧ mount.Stays start world := by
  unfold upon at stays
  split at stays
  · exact stays
  · exact ⟨stays.1, stays.2.1⟩

theorem Mount.upon_serves (shown : (mount.upon host page start effect).Poised (Procedure.meaning host) values graph world) :
    mount.Serves host page.holds start.regions.size values world := by
  have underway := shown.underway
  unfold upon at underway
  split at underway
  · exact underway.served _ (Set.mem_insert ..) (by simp) values fun _ _ => rfl
  · exact underway.stays.2.2 values

/-- The owners that go with the scope of a mount, once it is there. -/
def Mount.going (mount : Mount γ) (effect : OwnerId) (gone : List OwnerId) : List OwnerId :=
  if mount.view.isReactive then effect :: gone else gone

theorem Mount.leaves_upon (poised : page.Poised (Procedure.meaning host) values graph start)
    (leaves : page.Leaves rest gone dropped) :
    (mount.upon host page start graph.nextId).Leaves rest (mount.going graph.nextId gone) dropped := by
  have fresh := poised.fresh
  unfold upon going
  split
  · have old : ∀ v ∈ page.watchers, v.id ≠ graph.nextId := fun v watches =>
      (poised.underway.bound v.id (.inr ⟨v, watches, rfl⟩)).ne
    refine ⟨leaves.layout_eq.trans (Layout.without_add fresh ..).symm, leaves.fits_eq, leaves.holds_eq, fun v => ?_,
      fun cell task computes mem => ?_⟩
    · rw [leaves.watchers, mem_cons, not_or]
      constructor
      · exact fun ⟨watches, stays⟩ => ⟨Set.mem_insert_of_mem _ watches, old v watches, stays⟩
      · rintro ⟨rfl | watches, other, stays⟩
        · exact absurd rfl other
        · exact ⟨watches, stays⟩
    · have computes := (Layout.computes_add fresh).mp computes
      refine leaves.whole cell task computes ((mem_cons.mp mem).resolve_left fun new => ?_)
      rw [Layout.Computes, new, fresh] at computes
      cases computes
  · exact { leaves with }

end Upon

section Mounting

/-- The graph when the effect of a mount has been made and has not run. -/
def Mount.base (mount : Mount γ) (start : World γ τ) (graph : Graph (Procedure γ) Datum) : Graph (Procedure γ) Datum :=
  if mount.view.isReactive then graph.begun (some mount.scope) (.effect (.refresh start.regions.size mount.view)) else graph

/-- A mount has come to a page and is kept up: signals have the values given here, and nothing else was made. -/
def Mount.Upheld (mount : Mount γ) (host : Host γ τ) (page : Scene (Procedure γ) (World γ τ) Datum)
    (graph : Graph (Procedure γ) Datum) (start : World γ τ) (values : CellId → Datum) (graph' : Graph (Procedure γ) Datum)
    (world' : World γ τ) : Prop :=
  ∃ now, (mount.upon host page start graph.nextId).Poised (Procedure.meaning host) now graph' world' ∧
    (∀ c, page.layout.cells c = true → page.layout.IsSignal c → now c = values c) ∧
    ∀ m, (graph'.owners.get? m).map Owner.still = ((mount.base start graph).owners.get? m).map Owner.still

variable (poised : page.Poised (Procedure.meaning host) values graph start) (suits : mount.Suits host page graph start)
include poised suits

theorem attains_mount_reactive (reactive : mount.view.isReactive = true) (under : graph.owner = some mount.scope) :
    (Live.mount mount.spot.region mount.view none).Attains (meaning host) graph start fun _ =>
      mount.Upheld host page graph start values := by
  refine currentOwner_attains (changing_attains ?_)
  rw [if_pos reactive, under]
  have bears := suits.bears start _ poised.underway.stays suits.homed (mount.renews_mounted start fun _ _ => rfl)
  have begins : mount.Stays start (start.mounted mount.region none) :=
    ⟨.refl _, suits.homed, _, World.regions_mounted .., .begin suits.standing⟩
  have sound := suits.sound poised reactive
  rw [Mount.upon, if_pos reactive] at sound
  refine ((poised.kept suits.keeps bears begins).join suits.alive suits.inert under sound).bind ?_
  rintro _ _ _ ⟨now, placed, signals, still⟩
  refine attains_pure ⟨now, ?_, signals, ?_⟩
  · rw [Mount.upon, if_pos reactive]
    exact placed
  · rw [Mount.base, if_pos reactive]
    exact still

omit poised in
/-- What a mount comes to that shows its items once, whatever lazy views have been asked for meanwhile. -/
theorem Mount.Suits.shown_once {lazies : Array (Lazy γ)} (stays : page.stays start) (apt : mount.Apt start.document items)
    (same : ∀ l < start.lazies.size, lazies[l]? = start.lazies[l]?) :
    let shown := World.updated { start.mounted mount.region none with lazies } start.regions.size mount.region items
    page.Bears start shown ∧ mount.Stays start shown ∧ Displays start.regions.size items shown := by
  intro shown
  have inPlace : mount.InPlace start.document start.document mount.region := .begin suits.standing
  have faithful := Faithful.refl start.document
  have renews := inPlace.renews faithful apt start.regions.size
  have found := World.regions_updated (World.regions_mounted start mount.region none) mount.region items
  have updated := inPlace.standing.update (inPlace.showable faithful apt)
  have renews' : mount.Renews start.regions.size start shown :=
    ⟨renews.toRetains, rfl, renews.parent?_eq, renews.children_eq, fun i apart => ?_, same⟩
  · exact ⟨suits.bears start shown stays suits.homed renews', ⟨faithful.trans renews.faithful,
      inPlace.homed faithful apt suits.homed, _, found, inPlace.updated updated⟩, _, found, updated.shows⟩
  · show ((start.regions.push _).modify _ _)[i]? = _
    rw [Array.getElem?_modify, if_neg (Ne.symm apart), Array.getElem?_push, if_neg apart]

theorem attains_mount_still (still : mount.view.isReactive = false) (under : graph.owner = some mount.scope) :
    (Live.mount mount.spot.region mount.view none).Attains (meaning host) graph start fun _ =>
      mount.Upheld host page graph start values := by
  have underway := poised.underway
  obtain ⟨items, _, resolves, _, apt⟩ := suits.mountable values (poised.agrees _)
  obtain rfl := resolves.unread still
  obtain ⟨bears, stays, shown⟩ := suits.shown_once underway.stays apt fun _ _ => rfl
  have always : ∀ world, Displays start.regions.size items world → ∀ now,
      mount.Serves host page.holds start.regions.size now world := fun world shown now =>
    ⟨items, [], resolves.congr (by simp), shown⟩
  refine currentOwner_attains (changing_attains ?_)
  rw [if_neg (by simp [still]), under]
  have shows : ({ graph with observer := Option.none } : Graph (Procedure γ) Datum).Shows values := underway.woven.shows
  have mounted := suits.bears start _ underway.stays suits.homed (mount.renews_mounted start fun _ _ => rfl)
  have framed := suits.framed _ (poised.sound.steady _ (mounted.stays underway.stays))
  obtain ⟨level, ensures⟩ := ensures_refresh_resolved resolves (by simp) shows suits.alive framed
    (World.regions_mounted start mount.region Option.none) rfl
  have ran : (untracked (refresh start.regions.size mount.view)).Ensures (meaning host) level graph
      (start.mounted mount.region Option.none) fun _ graph' world' => graph' = graph ∧
        world' = (start.mounted mount.region Option.none).updated start.regions.size mount.region items := by
    refine ensures_untracked (ensures.mono ?_)
    rintro _ _ _ ⟨rfl, rfl⟩
    exact ⟨rfl, rfl⟩
  refine Ensures.attains_done level ran ⟨values, ?_, fun _ _ _ => rfl, ?_⟩
  · rw [Mount.upon, if_neg (by simp [still])]
    refine poised.kept (fun world world' stays mine changed => ?_) bears ⟨stays, always _ shown⟩
    have heeds := suits.heeds world world' stays mine.1.2.1 changed
    exact ⟨heeds.stays mine.1, fun now => heeds.serves mine.1 (mine.2 now)⟩
  · rw [Mount.base, if_neg (by simp [still])]
    exact fun _ => rfl

theorem attains_mounted (idle : start.isHydrating = false) :
    (ownedBy mount.scope (mount.spot.mount mount.view)).Attains (meaning host) graph start fun _ =>
      mount.Upheld host page graph start values := by
  have under : page.Poised (meaning host) values { graph with owner := some mount.scope, observer := none } start :=
    poised.under ..
  have suits' : mount.Suits host page { graph with owner := some mount.scope, observer := none } start :=
    { suits with }
  have mounts : (Live.mount mount.spot.region mount.view none).Attains (meaning host)
      { graph with owner := some mount.scope, observer := none } start fun _ =>
        mount.Upheld host page { graph with owner := some mount.scope, observer := none } start values := by
    cases reacts : mount.view.isReactive with
    | true => exact attains_mount_reactive under suits' reacts rfl
    | false => exact attains_mount_still under suits' reacts rfl
  refine attains_ownedBy ((attains_spot idle suits.standing mounts).mono ?_)
  rintro _ _ _ ⟨now, placed, signals, still⟩
  refine ⟨now, placed.under .., signals, ?_⟩
  unfold Mount.base at still ⊢
  split at still
  · rename_i reactive
    rw [if_pos reactive]
    exact still
  · rename_i unreactive
    rw [if_neg unreactive]
    exact still

end Mounting

section Keeping

variable {held : CellId → Datum} (poised : page.Poised (Procedure.meaning host) held graph start)
include poised

theorem Mount.Upheld.write (upheld : mount.Upheld host page graph start values graph' world')
    (writes : Writes Datum) (fit : writes.Fit page.layout page.fits) :
    (writes.program : LiveProgram γ τ Unit).Attains (meaning host) graph' world' fun _ =>
      mount.Upheld host page graph start (writes.apply values) := by
  obtain ⟨now, placed, signals, still⟩ := upheld
  have signal : ∀ c, page.layout.IsSignal c → (mount.upon host page start graph.nextId).layout.IsSignal c :=
    fun c signal task computes => signal task ((Mount.upon_computes poised.fresh c task).mp computes)
  have cells : (mount.upon host page start graph.nextId).layout.cells = page.layout.cells := Mount.upon_cells
  have fit' : writes.Fit (mount.upon host page start graph.nextId).layout (mount.upon host page start graph.nextId).fits := by
    rw [Mount.upon_fits]
    exact fit.mono signal
  refine (placed.write writes fit').mono ?_
  rintro _ _ _ ⟨later, placed', after, steady⟩
  refine ⟨later, placed', fun c alive isSignal => ?_, fun m => (steady.same m).trans (still m)⟩
  rw [after c (cells ▸ alive) (signal c isSignal)]
  exact writes.apply_congr (signals c alive isSignal)

/-- What is seen of a mount: in its spot stand the items to which its view resolves now, and no signal holds anything but
what was written last. Whatever else watches the page has done its part as well. -/
def Mount.Current (mount : Mount γ) (host : Host γ τ) (page : Scene (Procedure γ) (World γ τ) Datum)
    (first : Document γ Property) (signals : CellId → Datum) (graph : Graph (Procedure γ) Datum) (world : World γ τ) : Prop :=
  ∃ now items, graph.Shows now ∧
    (∀ c, page.layout.cells c = true → page.layout.IsSignal c → now c = signals c) ∧
    (∀ c task, page.layout.Computes c task → UpToDate (Procedure.meaning host) page.holds now c task) ∧
    (∃ cells, Resolves host page.holds now mount.view items cells) ∧
    mount.view.items.Attains (Procedure.meaning host) graph world (fun shown _ after => shown = items ∧ after = world) ∧
    mount.InSpot first items world.document ∧ page.stays world ∧ ∀ w ∈ page.watchers, w.serves now world

theorem Mount.Upheld.current (upheld : mount.Upheld host page graph start values graph' world')
    (suits : mount.Suits host page graph start) : mount.Current host page start.document values graph' world' := by
  obtain ⟨now, placed, signals, _⟩ := upheld
  have woven := placed.underway.woven
  obtain ⟨keeps, stays⟩ := Mount.upon_stays placed.underway.stays
  obtain ⟨items, cells, resolves, shown⟩ := Mount.upon_serves placed
  have agrees : ∀ bound, Agrees (meaning host) page.holds page.fits page.layout bound now := by
    intro bound
    have agrees := placed.agrees bound
    rw [Mount.upon_holds, Mount.upon_fits] at agrees
    exact agrees.congr Mount.upon_cells (Mount.upon_computes poised.fresh)
  have holds : page.holds world' := poised.sound.steady world' keeps
  obtain ⟨_, _, resolves', known, _⟩ := suits.mountable now (agrees _)
  obtain ⟨rfl, rfl⟩ := resolves.reads.unique holds resolves'.reads
  have asked : mount.view.items.Attains (meaning host) graph' world' fun shown _ after =>
      shown = items ∧ after = world' := by
    obtain ⟨level, ensures⟩ := resolves.reads.ensures holds woven.shows fun c mem => by
      rw [woven.cellAlive, Mount.upon_cells]
      exact known c mem
    exact Ensures.attains level ensures ⟨rfl, rfl⟩
  refine ⟨now, items, woven.shows, signals, fun c task computes => ?_, ⟨cells, resolves⟩, asked, shown.inSpot stays, keeps,
    fun w watches => ?_⟩
  · exact (agrees (c + 2)).current c task computes (Nat.lt_succ_self _)
  · exact placed.underway.served w (Mount.upon_watchers watches) (by simp) now fun _ _ => rfl

theorem Mount.Upheld.sweep (upheld : mount.Upheld host page graph start values graph' world')
    (alive : graph.ownerAlive mount.scope = true) (sweep : graph.Sweep [mount.scope] gone tasks) (once : gone.Nodup)
    (named : graph.Named) :
    graph'.Sweep [mount.scope] (mount.going graph.nextId gone) tasks ∧ (mount.going graph.nextId gone).Nodup ∧ graph'.Named ∧
      graph'.cellsOf (mount.going graph.nextId gone) = graph.cellsOf gone := by
  obtain ⟨_, _, _, still⟩ := upheld
  unfold Mount.base at still
  unfold Mount.going
  split at still
  · rename_i reactive
    rw [if_pos reactive]
    obtain ⟨swept, cells⟩ := sweep.begun poised.numbered alive once
    have fresh : graph.nextId ∉ gone := fun mem => by
      obtain ⟨o, there, _⟩ := sweep.closed mem
      exact absurd (poised.numbered.owners _ (isSome_iff_exists.mpr ⟨o, there⟩)) (lt_irrefl _)
    exact ⟨swept.still fun e _ => still e, nodup_cons.mpr ⟨fresh, once⟩, (named.begun poised.numbered alive).still still,
      (cellsOf_still fun e _ => still e).trans cells⟩
  · rename_i unreactive
    rw [if_neg unreactive]
    exact ⟨sweep.still fun e _ => still e, once, named.still still, cellsOf_still fun e _ => still e⟩

theorem Mount.Upheld.disposed (upheld : mount.Upheld host page graph start values graph' world')
    (suits : mount.Suits host page graph start)
    (sheds : page.Sheds (Procedure.meaning host) level graph mount.scope gone tasks)
    (later : Writes Datum) (fit : later.Fit (page.layout.without gone (graph.cellsOf gone)) page.fits) :
    (do
      perform (.dispose mount.scope)
      later.program : LiveProgram γ τ Unit).Attains (meaning host) graph' world' fun _ _ world'' =>
        mount.Heeds start.regions.size world' world'' := by
  obtain ⟨swept, once, named, cells⟩ := upheld.sweep poised suits.alive sheds.sweep sheds.once sheds.named
  obtain ⟨now, placed, _, _⟩ := upheld
  obtain ⟨keeps, stays⟩ := Mount.upon_stays placed.underway.stays
  -- from here on the page keeps the region as it is now
  let left := (page.without gone (graph.cellsOf gone)).kept (mount.Heeds start.regions.size world')
  have heeding : ∀ one two, page.stays one → mount.Heeds start.regions.size world' one → page.changes one two →
      mount.Heeds start.regions.size world' two := fun one two stays' heeds changed =>
    heeds.trans (suits.heeds one two stays' (heeds.homed stays.2.1) changed)
  have leaves : page.Leaves left gone (graph.cellsOf gone) := ⟨rfl, rfl, rfl, fun _ => Iff.rfl, sheds.whole⟩
  have leaves' : (mount.upon host page start graph.nextId).Leaves left _ _ := Mount.leaves_upon poised leaves
  rw [← cells] at leaves'
  refine (placed.dispose swept once named sheds.asides leaves' (sheds.sound.kept heeding) fun other turns => ?_).bind ?_
  · obtain ⟨both, serves⟩ := turns.spoils_nothing heeding ⟨keeps, .refl ..⟩
    exact ⟨both, fun w watches => serves w watches.1⟩
  · rintro _ _ _ ⟨rested, _⟩
    refine (rested.write later fit).mono ?_
    rintro _ _ _ ⟨_, last, _⟩
    exact last.underway.stays.2

end Keeping

section Neighbours

variable {neighbour : Mount γ} {effect : OwnerId}

theorem Mount.Suits.kept {stays : World γ τ → Prop} (suits : mount.Suits host page graph start)
    (keeps : ∀ world world', page.stays world → mount.Homed start.document world.document →
      mount.Renews start.regions.size world world' → stays world → stays world') :
    mount.Suits host (page.kept stays) graph start where
  alive := suits.alive
  inert := suits.inert
  standing := suits.standing
  own := suits.own
  mountable := suits.mountable
  framed := suits.framed
  heeds world world' both := suits.heeds world world' both.1
  bears world world' both homed renews :=
    have bears := suits.bears world world' both.1 homed renews
    ⟨fun both => ⟨bears.stays both.1, keeps world world' both.1 homed renews both.2⟩, bears.serves⟩

theorem Mount.upon_changes (changed : (mount.upon host page start effect).changes world world') :
    page.changes world world' ∨ mount.Renews start.regions.size world world' := by
  unfold upon at changed
  split at changed
  · exact changed
  · exact .inl changed

theorem Mount.upon_bears (stays : mount.Stays start world) (heeds : mount.Heeds start.regions.size world world')
    (bears : page.Bears world world') : (mount.upon host page start effect).Bears world world' := by
  unfold upon
  split
  · refine ⟨fun both => ⟨bears.stays both.1, heeds.stays stays⟩, ?_⟩
    rintro v (rfl | watches) values
    · exact heeds.serves stays
    · exact bears.serves v watches values
  · exact ⟨fun both => ⟨bears.stays both.1, heeds.stays stays, fun values => heeds.serves stays (both.2.2 values)⟩, bears.serves⟩

variable {held : CellId → Datum} (poised : page.Poised (Procedure.meaning host) held graph start)
  (upheld : mount.Upheld host page graph start values graph' world') (suits : mount.Suits host page graph start)
include poised upheld

theorem Mount.Upheld.alive (alive : graph.ownerAlive mount.scope = true) {m : OwnerId} (old : graph.ownerAlive m = true) :
    graph'.ownerAlive m = true := by
  obtain ⟨_, _, _, still⟩ := upheld
  have made : ((mount.base start graph).owners.get? m).isSome = true := by
    unfold Mount.base
    split
    · rw [owners_begun poised.numbered alive, if_neg (poised.numbered.owners m old).ne]
      split
      · rw [Option.isSome_map]
        exact old
      · exact old
    · exact old
  rw [← Option.isSome_map, ← still m, Option.isSome_map] at made
  exact made

omit poised in
theorem Mount.Upheld.regions : start.regions.size < world'.regions.size := by
  obtain ⟨_, placed, _, _⟩ := upheld
  obtain ⟨_, _, _, _, found, _⟩ := Mount.upon_stays placed.underway.stays
  exact (Array.getElem?_eq_some_iff.mp found).1

omit poised upheld in
/-- A mount leaves a neighbour alone for which there is a place. -/
theorem attains_mounted_beside (poised : page.Poised (Procedure.meaning host) held graph start)
    (suits : mount.Suits host page graph start) (idle : start.isHydrating = false)
    (apart : neighbour.Apart mount start.document start.document) (ids : id ≠ start.regions.size)
    (homed : neighbour.Homed start.document start.document)
    (heeds : ∀ world world', page.stays world → neighbour.Homed start.document world.document → page.changes world world' →
      neighbour.Heeds id world world') :
    (ownedBy mount.scope (mount.spot.mount mount.view)).Attains (meaning host) graph start fun _ graph' world' =>
      mount.Upheld host page graph start held graph' world' ∧ neighbour.Heeds id start world' := by
  have keeps : ∀ world world', page.stays world → neighbour.Heeds id start world → page.changes world world' →
      neighbour.Heeds id start world' := fun world world' stays beside changed =>
    beside.trans (heeds world world' stays (beside.homed homed) changed)
  have aside := poised.kept keeps ⟨fun stays => stays, fun _ _ _ served => served⟩ (.refl id start)
  have suits' : mount.Suits host (page.kept (neighbour.Heeds id start)) graph start :=
    suits.kept fun world world' _ mine renews beside => beside.trans
      (renews.heeds apart.symm ids mine (beside.homed homed))
  refine ((attains_mounted poised suits idle).and (attains_mounted aside suits' idle)).mono ?_
  rintro _ _ _ ⟨upheld, _, placed, _⟩
  exact ⟨upheld, (Mount.upon_stays placed.underway.stays).1.2⟩

/-- There is a place for a mount beside another one, if there was a place before and the two are apart. -/
theorem Mount.Suits.beside (suits : neighbour.Suits host page graph' world')
    (apart : neighbour.Apart mount world'.document start.document) (old : graph.ownerAlive neighbour.scope = true) :
    neighbour.Suits host (mount.upon host page start graph.nextId) graph' world' where
  alive := suits.alive
  inert := by
    unfold upon
    split
    · rw [Scene.reacts_watched]
      exact fun acts => acts.elim suits.inert (poised.numbered.owners _ old).ne
    · exact suits.inert
  standing := suits.standing
  own := suits.own
  mountable values agrees := by
    rw [Mount.upon_holds, Mount.upon_fits] at agrees
    obtain ⟨items, cells, resolves, known, apt⟩ :=
      suits.mountable values (agrees.congr Mount.upon_cells (Mount.upon_computes poised.fresh))
    rw [Mount.upon_holds, Mount.upon_cells]
    exact ⟨items, cells, resolves, known, apt⟩
  framed := by
    rw [Mount.upon_holds]
    exact suits.framed
  heeds world world'' stays homed changed := by
    obtain ⟨keeps, mine⟩ := Mount.upon_stays stays
    rcases Mount.upon_changes changed with changed | renews
    · exact suits.heeds world world'' keeps homed changed
    · exact renews.heeds apart.symm upheld.regions.ne' mine.2.1 homed
  bears world world'' stays homed renews := by
    obtain ⟨keeps, mine⟩ := Mount.upon_stays stays
    exact Mount.upon_bears mine (renews.heeds apart upheld.regions.ne homed mine.2.1)
      (suits.bears world world'' keeps homed renews)

include suits

theorem Mount.Upheld.sheds (sheds : page.Sheds (Procedure.meaning host) level graph mount.scope gone tasks) :
    (mount.upon host page start graph.nextId).Sheds (Procedure.meaning host) level graph' mount.scope
      (mount.going graph.nextId gone) tasks := by
  obtain ⟨swept, once, named, cells⟩ := upheld.sweep poised suits.alive sheds.sweep sheds.once sheds.named
  have leaves : page.Leaves (page.without gone (graph.cellsOf gone)) gone (graph.cellsOf gone) :=
    ⟨rfl, rfl, rfl, fun _ => Iff.rfl, sheds.whole⟩
  refine ⟨swept, once, named, ?_, ?_, fun task mem before outside => (sheds.asides task mem before outside).mono ?_⟩
  · rw [cells]
    exact (Mount.leaves_upon poised leaves).whole
  · rw [cells]
    unfold Mount.upon Mount.going
    split
    · have old : ∀ v ∈ page.watchers, v.id ≠ graph.nextId := fun v watches =>
        (poised.underway.bound v.id (.inr ⟨v, watches, rfl⟩)).ne
      rw [Scene.without_watched]
      · exact (sheds.sound.kept suits.keeps).widen _
      · exact poised.fresh
      · exact old
    · refine sheds.sound.kept fun world world' stays mine changed => ?_
      have heeds := suits.heeds world world' stays mine.1.2.1 changed
      exact ⟨heeds.stays mine.1, fun now => heeds.serves mine.1 (mine.2 now)⟩
  · rintro _ _ outside' ⟨same, done⟩
    refine ⟨same, fun stays => ?_⟩
    obtain ⟨keeps, mine⟩ := Mount.upon_stays stays
    obtain ⟨changed, bears⟩ := done keeps
    refine ⟨?_, Mount.upon_bears mine (suits.heeds outside outside' keeps mine.2.1 changed) bears⟩
    unfold Mount.upon
    split
    · exact .inl changed
    · exact changed

end Neighbours

/-- A view of elements, texts, lists and getters is mounted for a scope of a page: at the end of a parent, before a node or
behind a marker. However signals are written, in batches or not, the region then shows what the view resolves to on what the
signals hold, and its siblings stand around it as they stood. Once the scope is disposed no write changes them.

There may be other watchers on the page, and cleanups, cells, watchers and scopes of the scope: they do not touch the region,
and what is shown in it does not spoil what they are for. -/
theorem mounted_view_stays_current (poised : page.Poised (Procedure.meaning host) values graph world)
    (idle : world.isHydrating = false) (suits : mount.Suits host page graph world)
    (sheds : page.Sheds (Procedure.meaning host) level graph mount.scope gone tasks)
    (writes later : Writes Datum) (fit : writes.Fit page.layout page.fits)
    (fit' : later.Fit (page.layout.without gone (graph.cellsOf gone)) page.fits) :
    (do
      Program.ownedBy mount.scope (mount.spot.mount mount.view)
      writes.program : LiveProgram γ τ Unit).Attains (Procedure.meaning host) graph world fun _ graph' world' =>
        mount.Current host page world.document (writes.apply values) graph' world' ∧
        (do
          Program.perform (.dispose mount.scope)
          later.program : LiveProgram γ τ Unit).Attains (Procedure.meaning host) graph' world' fun _ _ world'' =>
            mount.Heeds world.regions.size world' world'' := by
  refine (attains_mounted poised suits idle).bind ?_
  intro _ graph' world' upheld
  refine (upheld.write poised writes fit).mono ?_
  intro _ graph'' world'' still
  exact ⟨still.current poised suits, still.disposed poised suits sheds later fit'⟩

section Sign

variable {id : OwnerId} {shut : Bool} {c : CellId} {holds : World SignCode Nat → Prop}

/-- The code of a sign with a lamp: its face, what the face depends on, the lamp, and the sign as a whole. -/
inductive SignCode where
  | face | opposite | lamp | whole

def signView : View SignCode := .list [.text "now ", .dynamic (.code .face)]

/-- A sign shows a node while it is open and a text while it is not. It is open while the first cell holds false. The lamp
tells day from night, and what is cleaned up is counted. -/
def signHost : Host SignCode Nat where
  view
    | .whole => return signView
    | .lamp => do return .text (if (← Program.get true 2) matches .bool true then "night" else "day")
    | _ => do return if (← Program.get true 3) matches .bool true then .node 5 else .text "closed"
  attributeText _ := return none
  datum _ := do
    match ← Program.get true 2 with
    | .bool shut => return .bool !shut
    | other => return other
  act _ := Program.altering fun world => { world with host := world.host + 1 }
  handle _ _ := return

/-- A scope with a computed cell and with a scope that has a cleanup. The signal is not of this scope. -/
def signGraph : Graph (Procedure SignCode) Datum where
  nextId := 6
  cells := ⟨[(2, { value := some (.bool false), subscribers := [4] }), (3, { value := some (.bool true) })]⟩
  owners := ⟨[(1, { parent := none, body := none, children := [4, 5], cells := [3] }),
    (4, { parent := some 1, body := some (.computed 3 (.datum (.code .opposite))), sources := [2] }),
    (5, { parent := some 1, body := none, cleanups := [.act .whole] })]⟩

/-- A paragraph with two elements, a marker between them, an element that stands nowhere, and an empty paragraph. -/
def signWorld : World SignCode Nat where
  document := { nodes := #[
    { kind := .element "p" false, children := [1, 2, 3, 4] },
    { kind := .element "b" false, parent := some 0 }, { kind := .comment, data := "$", parent := some 0 },
    { kind := .text, data := "a", parent := some 0 }, { kind := .element "i" false, parent := some 0 },
    { kind := .element "u" false }, { kind := .element "p" false }] }
  host := 0

def isBool (_ : CellId) (value : Datum) : Prop := ∃ b, value = .bool b

/-- A page that the two are mounted on: nothing happens there but that things are counted. -/
def signPage : Scene (Procedure SignCode) (World SignCode Nat) Datum where
  layout := signGraph.layout
  fits := isBool
  holds world := Faithful signWorld.document world.document
  watchers := ∅
  stays world := Faithful signWorld.document world.document ∧ world.isHydrating = false
  changes world world' := ∃ host, world' = { world with host }

def sign : Mount SignCode where
  view := signView
  spot := .behind 0 2
  scope := 1
  left := [1]
  right := [3, 4]
  own := [5]

def lamp : Mount SignCode where
  view := .dynamic (.code .lamp)
  spot := .last 6
  scope := 1
  left := []
  right := []
  own := []

theorem cells_signGraph {slot : Cell Datum} (found : signGraph.cells.get? c = some slot) :
    (c = 2 ∧ slot = { value := some (.bool false), subscribers := [4] }) ∨ (c = 3 ∧ slot = { value := some (.bool true) }) := by
  simp only [signGraph, Table.get?, Table.find?] at found
  split at found
  · rename_i same
    exact .inl ⟨same.symm, (some.inj found).symm⟩
  · split at found
    · rename_i same
      exact .inr ⟨same.symm, (some.inj found).symm⟩
    · cases found

theorem owners_signGraph {o : Owner (Procedure SignCode) Datum} (found : signGraph.owners.get? id = some o) :
    (id = 1 ∧ o = { parent := none, body := none, children := [4, 5], cells := [3] }) ∨
      (id = 4 ∧ o = { parent := some 1, body := some (.computed 3 (.datum (.code .opposite))), sources := [2] }) ∨
      (id = 5 ∧ o = { parent := some 1, body := none, cleanups := [.act .whole] }) := by
  simp only [signGraph, Table.get?, Table.find?] at found
  split at found
  · rename_i same
    exact .inl ⟨same.symm, (some.inj found).symm⟩
  · split at found
    · rename_i same
      exact .inr (.inl ⟨same.symm, (some.inj found).symm⟩)
    · split at found
      · rename_i same
        exact .inr (.inr ⟨same.symm, (some.inj found).symm⟩)
      · cases found

theorem computes_signGraph {cell : CellId} {task : Procedure SignCode Datum}
    (runs : signGraph.layout.bodies id = some (some (.computed cell task))) :
    id = 4 ∧ cell = 3 ∧ task = .datum (.code .opposite) := by
  obtain ⟨_, found, body⟩ := map_eq_some_iff.mp runs
  rcases owners_signGraph found with ⟨rfl, rfl⟩ | ⟨rfl, rfl⟩ | ⟨rfl, rfl⟩
  · cases body
  · simp only [some.injEq, Body.computed.injEq] at body
    exact ⟨rfl, body.1.symm, body.2.symm⟩
  · cases body

theorem reads_datum_sign {values : CellId → Datum} (held : values 2 = .bool shut) :
    Reads (meaning signHost) holds values (meaning signHost (.datum (.code .opposite))) (.bool !shut) [2] := by
  refine Reads.bind (reads_get 2) ?_
  rw [held]
  exact .done _

def openSign (c : CellId) : Datum := .bool (c == 3)

theorem plain_sign : signGraph.layout.Plain (meaning signHost) holds isBool where
  placed id cell task runs := by
    obtain ⟨rfl, rfl, rfl⟩ := computes_signGraph runs
    exact ⟨rfl, rfl⟩
  reads cell task values runs agrees := by
    obtain ⟨-, rfl, rfl⟩ := computes_signGraph runs
    obtain ⟨_, held⟩ := agrees.fit 2 rfl fun task runs => absurd (computes_signGraph runs).1 (by decide)
    exact ⟨_, _, reads_datum_sign held, by decide⟩

theorem mem_sources_signGraph : c ∈ signGraph.sourcesOf id ↔ id = 4 ∧ c = 2 := by
  unfold sourcesOf
  constructor
  · intro mem
    cases found : signGraph.owners.get? id with
    | none => simp [found] at mem
    | some =>
      rw [found] at mem
      rcases owners_signGraph found with ⟨rfl, rfl⟩ | ⟨rfl, rfl⟩ | ⟨rfl, rfl⟩
      · cases mem
      · exact ⟨rfl, mem_singleton.mp mem⟩
      · cases mem
  · rintro ⟨rfl, rfl⟩
    decide

theorem reacts_sign (acts : signPage.Reacts id) : id = 4 := by
  rcases acts with ⟨cell, task, runs⟩ | ⟨task, watches, _⟩
  · exact (computes_signGraph runs).1
  · cases watches

theorem numbered_sign : signGraph.Numbered where
  cells c alive := by
    obtain ⟨_, found⟩ := isSome_iff_exists.mp alive
    rcases cells_signGraph found with ⟨rfl, -⟩ | ⟨rfl, -⟩ <;> decide
  owners id alive := by
    obtain ⟨_, found⟩ := isSome_iff_exists.mp alive
    rcases owners_signGraph found with ⟨rfl, -⟩ | ⟨rfl, -⟩ | ⟨rfl, -⟩ <;> decide

theorem poised_sign : signPage.Poised (meaning signHost) openSign signGraph signWorld where
  sound := ⟨fun _ stays => stays.1, plain_sign, fun _ none => (by cases none), fun _ none => (by cases none)⟩
  numbered := numbered_sign
  top := rfl
  quiet := {
    underway := {
      woven := {
        layout_eq := rfl
        shows := fun c slot found => by
          rcases cells_signGraph found with ⟨rfl, rfl⟩ | ⟨rfl, rfl⟩ <;> exact ⟨rfl, rfl⟩
        sorted := fun c slot found => by
          rcases cells_signGraph found with ⟨rfl, rfl⟩ | ⟨rfl, rfl⟩ <;> simp
        agree := fun c slot found id => by
          rw [mem_sources_signGraph]
          rcases cells_signGraph found with ⟨rfl, rfl⟩ | ⟨rfl, rfl⟩ <;> simp
        reactive := fun id c mem => by
          obtain ⟨rfl, rfl⟩ := mem_sources_signGraph.mp mem
          exact ⟨.inl ⟨3, _, rfl⟩, by decide, fun task runs => absurd (computes_signGraph runs).1 (by decide)⟩
        bare := fun id o acts found => by
          obtain rfl := reacts_sign acts
          obtain rfl := some.inj found
          exact ⟨rfl, rfl, rfl⟩ }
      bound := fun id acts => by
        obtain rfl := reacts_sign acts
        decide
      order := .nil
      react := fun id mem => by cases mem
      fit := fun c alive signal => ⟨_, rfl⟩
      current := fun c task runs _ => by
        obtain ⟨-, rfl, rfl⟩ := computes_signGraph runs
        exact ⟨_, _, reads_datum_sign rfl, by decide, .inl rfl⟩
      served := fun w watches => by cases watches
      stays := ⟨.refl _, rfl⟩ }
    free := rfl
    idle := fun _ => rfl }

theorem resolves_sign {values : CellId → Datum} (held : values 2 = .bool shut)
    (current : UpToDate (meaning signHost) signPage.holds values 3 (.datum (.code .opposite))) :
    Resolves signHost signPage.holds values signView [.text "now ", if shut then .text "closed" else .node 5] [3] := by
  obtain ⟨_, _, reads, same⟩ := current
  have begins : signPage.holds signWorld := .refl _
  obtain ⟨rfl, -⟩ := reads.unique begins (reads_datum_sign held)
  have shown : values 3 = .bool !shut := by
    refine same.elim (fun equal => equal) fun equal => ?_
    change Datum.equal (values 3) (.bool !shut) = true at equal
    cases held : values 3 <;> simp_all [Datum.equal]
  have face : Reads (meaning signHost) signPage.holds values
      (meaning signHost (.view (.code .face))) (if shut then .text "closed" else .node 5) [3] := by
    refine Reads.bind (reads_get 3) ?_
    rw [shown]
    cases shut <;> exact .done _
  have solid : ∀ world, signPage.holds world → world.document.isFragment 5 = false := by
    intro world faithful
    simp [isFragment, faithful.kind_eq 5 (by decide), show signWorld.document.kind 5 = .element "u" false from rfl]
  cases shut
  · exact .cons (.text _) (.cons (.dynamic face (.node 5 solid)) .nil)
  · exact .cons (.text _) (.cons (.dynamic face (.text _)) .nil)

theorem resolves_lamp {values : CellId → Datum} (held : values 2 = .bool shut) :
    Resolves signHost signPage.holds values lamp.view [.text (if shut then "night" else "day")] [2] := by
  have shown : Reads (meaning signHost) signPage.holds values (meaning signHost (.view (.code .lamp)))
      (.text (if shut then "night" else "day")) [2] := by
    refine Reads.bind (reads_get 2) ?_
    rw [held]
    cases shut <;> exact .done _
  exact .dynamic shown (.text _)

theorem isSignal_sign : signGraph.layout.IsSignal 2 := fun task runs => absurd (computes_signGraph runs).1 (by decide)

theorem bears_signPage {mount : Mount SignCode} {k : RegionId} {world world' : World SignCode Nat}
    (renews : mount.Renews k world world') : signPage.Bears world world' where
  stays both := ⟨both.1.trans renews.faithful, by rw [renews.eq]; exact both.2⟩
  serves w none := by cases none

theorem heeds_signPage (mount : Mount SignCode) (k : RegionId) {world world' : World SignCode Nat}
    (changed : signPage.changes world world') : mount.Heeds k world world' := by
  obtain ⟨_, rfl⟩ := changed
  exact ⟨.refl _, rfl, rfl, fun _ _ => rfl, fun _ _ => rfl⟩

theorem suits_lamp : lamp.Suits signHost signPage signGraph signWorld where
  alive := rfl
  inert acts := absurd (reacts_sign acts) (by decide)
  standing := ⟨⟨by decide, by decide, by decide, by decide⟩, by simp [lamp, Spot.region], by simp [lamp]⟩
  own := by simp [lamp]
  mountable values agrees := by
    obtain ⟨shut, held⟩ := agrees.fit 2 rfl isSignal_sign
    exact ⟨_, _, resolves_lamp held, by decide, ⟨.nil, fun n none => (by cases none), fun n none => (by cases none),
      fun n none => (by cases none)⟩⟩
  framed _ faithful := faithful
  heeds _ _ _ _ := heeds_signPage lamp _
  bears _ _ _ _ := bears_signPage

/-- There is a place for the sign, whatever has happened elsewhere. -/
theorem suits_sign {graph : Graph (Procedure SignCode) Datum} {world : World SignCode Nat} (alive : graph.ownerAlive 1 = true)
    (later : 4 < graph.nextId) (faithful : Faithful signWorld.document world.document)
    (standing : StandsBetween world.document sign.spot.region sign.left sign.right) : sign.Suits signHost signPage graph world where
  alive := alive
  inert acts := absurd (reacts_sign acts) (by decide)
  standing := standing
  own n mem := by
    obtain rfl := mem_singleton.mp mem
    exact Nat.lt_of_lt_of_le (by decide) faithful.size_le
  mountable values agrees := by
    obtain ⟨shut, held⟩ := agrees.fit 2 rfl isSignal_sign
    have element : (world.document.kind 5).isElement = true := by
      rw [faithful.kind_eq 5 (by decide)]
      rfl
    refine ⟨_, _, resolves_sign held (agrees.current 3 _ rfl later), by decide, ?_⟩
    cases shut
    · refine ⟨by decide, fun n mem => ?_, by decide, by decide⟩
      obtain rfl := mem_singleton.mp mem
      exact element
    · exact ⟨.nil, fun n none => (by cases none), by decide, by decide⟩
  framed _ faithful := faithful
  heeds _ _ _ _ := heeds_signPage sign _
  bears _ _ _ _ := bears_signPage

theorem standing_sign : StandsBetween signWorld.document sign.spot.region sign.left sign.right :=
  ⟨⟨by decide, by decide, by decide, by decide⟩, by simp [sign, Spot.region], by simp [sign, Spot.region]⟩

theorem sheds_sign : signPage.Sheds (meaning signHost) 0 signGraph 1 [5, 4, 1] [.act .whole] where
  sweep := by
    have four : signGraph.Sweep [4] _ _ := .cons rfl .nil .nil
    have five : signGraph.Sweep [5, 4] _ _ := .cons rfl .nil four
    have one := Graph.Sweep.cons (show signGraph.owners.get? 1 = some _ from rfl) five .nil
    exact one
  once := by decide
  named p q found e mem := by
    rcases owners_signGraph found with ⟨rfl, rfl⟩ | ⟨rfl, rfl⟩ | ⟨rfl, rfl⟩
    · rcases mem_cons.mp mem with rfl | mem
      · exact ⟨_, rfl, rfl⟩
      · obtain rfl := mem_singleton.mp mem
        exact ⟨_, rfl, rfl⟩
    · cases mem
    · cases mem
  whole cell task computes _ := by
    obtain ⟨-, rfl, -⟩ := computes_signGraph computes
    decide
  sound := by
    refine ⟨fun _ stays => stays.1, ⟨fun id cell task runs => ?_, fun cell task values runs => ?_⟩,
      fun _ watches => absurd watches.1 (Set.notMem_empty _), fun _ watches => absurd watches.1 (Set.notMem_empty _)⟩
    · by_cases gone : id ∈ [5, 4, 1]
      · cases (if_pos gone).symm.trans runs
      · obtain ⟨rfl, -, -⟩ := computes_signGraph ((Layout.bodies_without gone _).symm.trans runs)
        exact absurd (by decide) gone
    · obtain ⟨remains, computes⟩ := Layout.Computes.of_without runs
      obtain ⟨same, -, -⟩ := computes_signGraph computes
      exact absurd (by rw [same]; decide) remains
  asides task mem graph world := by
    obtain rfl := mem_singleton.mp mem
    exact ensures_changing ⟨rfl, fun stays => ⟨⟨_, rfl⟩, fun stays => stays, fun _ none => (by cases none)⟩⟩

def signWrites : Writes Datum := .both (.set 2 (.bool true)) (.batch (.set 2 (.bool false)))

/-- The lamp is mounted and then the sign. At last it is day and the sign is open, and when their scope is gone nothing
changes any more where the sign stands. -/
theorem mounted_view_stays_current_signs : (do
      Program.ownedBy 1 (lamp.spot.mount lamp.view)
      Program.ownedBy 1 (sign.spot.mount sign.view)
      signWrites.program : LiveProgram SignCode Nat Unit).Attains (Procedure.meaning signHost) signGraph signWorld
        fun _ graph world =>
          (∃ text, world.document.children 6 = [text] ∧ world.document.data text = "day") ∧
          (∃ text ending, world.document.children 0 = [1, 2, text, 5] ++ Option.toList ending ++ [3, 4] ∧
            world.document.data text = "now ") ∧
          (do
            Program.perform (.dispose 1)
            (Writes.set 2 (.bool true)).program : LiveProgram SignCode Nat Unit).Attains (Procedure.meaning signHost) graph
              world fun _ _ after => ∃ region, sign.Heeds region world after := by
  have apart : sign.Apart lamp signWorld.document signWorld.document := ⟨by decide, by decide, by decide, by decide⟩
  refine (attains_mounted_beside poised_sign suits_lamp rfl apart (show 1 ≠ 0 by decide)
    (.begin standing_sign (by decide)) fun _ _ _ _ => heeds_signPage sign 1).bind ?_
  rintro _ graph world ⟨upheld, beside⟩
  have sheds := upheld.sheds poised_sign suits_lamp sheds_sign
  obtain ⟨now, placed, -, still⟩ := id upheld
  obtain ⟨keeps, -⟩ := Mount.upon_stays placed.underway.stays
  have there : ∀ m, signGraph.ownerAlive m = true → graph.ownerAlive m = true := fun m => upheld.alive poised_sign suits_lamp.alive
  have apart' : sign.Apart lamp world.document signWorld.document := by
    refine ⟨apart.parents, apart.own, fun n mem => ?_, apart.away'⟩
    rw [beside.parent?_eq n (.inl mem)]
    exact apart.away n mem
  have suits := (suits_sign (there 1 rfl) (placed.numbered.owners 4 (there 4 rfl)) keeps.1
    (beside.standing standing_sign (by decide))).beside poised_sign upheld apart' rfl
  have signal : (lamp.upon signHost signPage signWorld 6).layout.IsSignal 2 := fun task computes =>
    isSignal_sign task ((Mount.upon_computes rfl 2 task).mp computes)
  have fit : signWrites.Fit (lamp.upon signHost signPage signWorld 6).layout (lamp.upon signHost signPage signWorld 6).fits := by
    rw [Mount.upon_fits]
    exact ⟨⟨signal, _, rfl⟩, signal, _, rfl⟩
  have fit' : (Writes.set 2 (.bool true)).Fit ((lamp.upon signHost signPage signWorld 6).layout.without
      (lamp.going 6 [5, 4, 1]) (graph.cellsOf (lamp.going 6 [5, 4, 1]))) (lamp.upon signHost signPage signWorld 6).fits := by
    rw [Mount.upon_fits]
    exact ⟨fun task computes => signal task computes.of_without.2, _, rfl⟩
  refine (mounted_view_stays_current placed keeps.2 suits sheds signWrites (.set 2 (.bool true)) fit fit').mono ?_
  rintro _ graph world' ⟨⟨last, items, _, signals, computed, ⟨cells, resolves⟩, _, spot, stays, served⟩, after⟩
  have held : last 2 = .bool false := signals 2 (by rw [Mount.upon_cells]; rfl) signal
  have begins : signPage.holds signWorld := .refl _
  refine ⟨?_, ?_, after.mono fun _ _ _ heeds => ⟨_, heeds⟩⟩
  · have lit : lamp.Serves signHost signPage.holds signWorld.regions.size last world' := served _ (Mount.upon_watches rfl)
    obtain ⟨_, _, resolves', shown⟩ := lit
    obtain ⟨rfl, -⟩ := resolves'.reads.unique begins (resolves_lamp held).reads
    obtain ⟨current, ending, children, shows, closed, -⟩ := shown.inSpot (Mount.upon_stays stays).2
    cases ending with
    | some e => cases (closed e rfl).2
    | none =>
      cases shows with
      | cons text none =>
        cases none
        exact ⟨_, children, text.2⟩
  · rw [Mount.upon_holds] at resolves computed
    have open' := resolves_sign held (computed 3 _ ((Mount.upon_computes rfl 3 _).mpr rfl))
    obtain ⟨rfl, -⟩ := resolves.reads.unique begins open'.reads
    obtain ⟨current, ending, children, shows, -⟩ := spot
    cases shows with
    | cons text rest =>
      cases rest with
      | cons node none =>
        cases none
        cases node
        exact ⟨_, ending, children, text.2⟩

end Sign

end LiveMarkup.Live
