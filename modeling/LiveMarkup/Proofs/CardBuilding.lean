import LiveMarkup.Proofs.CardItems

/-!
How the nodes of a card are bound to its cells: what each reaction makes of them when it runs, first over nodes that were
there already or over a copy of the template, and then whenever its cell is written.
-/

namespace LiveMarkup.Card
open Document Live Markup Reactive Text List Procedure Program Line

variable {level : Nat} {graph : CardGraph} {world world' : CardWorld} {fixed : NodeId → Prop} {parts : Parts}
  {properties : List (String × Property)} {line : Line}

section Edits

variable {next : CardDocument} {text : Option (NodeId × String)} {attributes : Attributes} {data : String}

structure Rebound (world world' : CardWorld) (parts : Parts) (fixed : NodeId → Prop) : Prop where
  placed : Placed world' parts [] fixed
  rest : world' = { world with document := world'.document }
  changes_eq : world'.document.changes = world.document.changes
  unchanged : ∀ m, fixed m → world'.document.node? m = world.document.node? m

theorem Rebound.trans {first second third : CardWorld} {middle parts : Parts} (one : Rebound first second middle fixed)
    (two : Rebound second third parts fixed) : Rebound first third parts fixed where
  placed := two.placed
  rest := by
    rw [two.rest, one.rest]
  changes_eq := two.changes_eq.trans one.changes_eq
  unchanged m here := (two.unchanged m here).trans (one.unchanged m here)

variable (placed : Placed world parts [] fixed)
include placed

theorem Placed.edit_root
    (edited : Edited world.document next parts.root parts.rootRecord { parts.rootRecord with attributes, properties })
    (equal : world' = { world with document := next }) :
    Rebound world world' { parts with attributes, properties } fixed := by
  have document : world'.document = next := by rw [equal]
  rw [← document] at edited
  obtain ⟨placed', unchanged⟩ := placed.step edited.confined (by simp [Parts.nodes]) (by rw [equal])
    (placed.standing.withRoot edited.confined (by simp) edited.result) ⟨by simp, by simp⟩ fun _ mem => .inl mem
  exact ⟨placed', by rw [equal], edited.changes_eq, unchanged⟩

theorem Placed.edit_heading {node : Node Code Property}
    (edited : Edited world.document next parts.heading.parent node { node with attributes })
    (equal : world' = { world with document := next }) :
    Rebound world world' { parts with headingAttributes := attributes } fixed := by
  have document : world'.document = next := by rw [equal]
  rw [← document] at edited
  have heading := placed.standing.heading
  have record := heading.self_eq
  rw [edited.found] at record
  have labelled : Labelled world'.document parts.heading "h1" attributes (some parts.root) := by
    refine heading.reparent ?_ fun n mem => edited.others n ?_
    · rw [edited.result, Option.some.inj record]
    · rintro rfl
      have leaf := (heading.leaf mem).1
      rw [heading.tag?_parent] at leaf
      cases leaf
  have own : ∀ n ∈ [parts.heading.parent], n ∈ parts.heading.all := by simp [Line.all]
  obtain ⟨placed', unchanged⟩ := placed.step edited.confined (fun n changed => by simp [Parts.nodes, own n changed])
    (by rw [equal]) (placed.standing.withHeading edited.confined own labelled) ⟨by simp, by simp⟩ fun _ mem => .inl mem
  exact ⟨placed', by rw [equal], edited.changes_eq, unchanged⟩

theorem Placed.show_heading (shown : parts.heading.Shown world.document world'.document data text)
    (host : world'.host = world.host) :
    Placed world' { parts with heading := { parts.heading with text } } [] fixed ∧
      ∀ m, fixed m → world'.document.node? m = world.document.node? m := by
  have confined := shown.touched.confined
  refine placed.step confined (fun n changed => ?_) host
    (placed.standing.withHeading confined (fun n changed => mem_all changed) (placed.standing.heading.shown shown))
    ⟨by simp, by simp⟩ fun n mem => ?_
  · simp [Parts.nodes, mem_all changed]
  · have grown := shown.grown (n := n)
    simp only [Parts.nodes, mem_cons, mem_append] at mem ⊢
    grind

theorem Placed.show_paragraph (shown : parts.paragraph.Shown world.document world'.document data text)
    (host : world'.host = world.host) :
    Placed world' { parts with paragraph := { parts.paragraph with text } } [] fixed ∧
      ∀ m, fixed m → world'.document.node? m = world.document.node? m := by
  refine placed.step shown.touched.confined (fun n changed => ?_) host (placed.standing.withParagraph shown)
    ⟨by simp, by simp⟩ fun n mem => ?_
  · simp [Parts.nodes, mem_all changed]
  · have grown := shown.grown (n := n)
    simp only [Parts.nodes, mem_cons, mem_append] at mem ⊢
    grind

theorem Placed.edit_button {listeners : List (Listener Code)}
    (edited : Edited world.document next parts.button parts.buttonRecord { parts.buttonRecord with listeners })
    (equal : world' = { world with document := next }) : Rebound world world' { parts with listeners } fixed := by
  have document : world'.document = next := by rw [equal]
  rw [← document] at edited
  obtain ⟨placed', unchanged⟩ := placed.step edited.confined (by simp [Parts.nodes]) (by rw [equal])
    (placed.standing.withButton edited.confined edited.result) ⟨by simp, by simp⟩ fun _ mem => .inl mem
  exact ⟨placed', by rw [equal], edited.changes_eq, unchanged⟩

end Edits

structure Holds (values : CellId → Option Datum) (cells : Cells) (card : Card) : Prop where
  kind : values cells.kind = some (.string card.kind)
  active : values cells.active = some (.bool card.active)
  tone : values cells.tone = some (toneDatum card.tone)
  title : values cells.title = some (.string card.title)
  count : values cells.count = some (countDatum card.count)
  items : values cells.items = some (itemsDatum card.items)

def Cells.all (cells : Cells) : List CellId :=
  [cells.kind, cells.active, cells.tone, cells.title, cells.count, cells.items]

theorem attribute?_toneDatum (tone : Option String) : (toneDatum tone).attribute? = tone := by
  cases tone <;> rfl

theorem fitsAttribute_toneDatum (tone : Option String) : (toneDatum tone).fitsAttribute := by
  cases tone <;> rfl

theorem ensures_newCells (card : Card) (rest : AtRest graph none) :
    (newCells card).Ensures (meaning host) level graph world fun cells graph' world' =>
      ∃ values, Unread graph' values ∧ Holds values cells card ∧ cells.all.Nodup ∧ AtRest graph' none ∧ world' = world := by
  have unread : Unread graph fun _ => none := fun _ _ held => by cases held
  refine (ensures_newSignal unread rest).bind ?_
  rintro _ graph₁ _ ⟨rfl, unread, rest, next₁, rfl⟩
  refine (ensures_newSignal unread rest).bind ?_
  rintro _ graph₂ _ ⟨rfl, unread, rest, next₂, rfl⟩
  refine (ensures_newSignal unread rest).bind ?_
  rintro _ graph₃ _ ⟨rfl, unread, rest, next₃, rfl⟩
  refine (ensures_newSignal unread rest).bind ?_
  rintro _ graph₄ _ ⟨rfl, unread, rest, next₄, rfl⟩
  refine (ensures_newSignal unread rest).bind ?_
  rintro _ graph₅ _ ⟨rfl, unread, rest, next₅, rfl⟩
  refine (ensures_newSignal unread rest).bind ?_
  rintro _ _ _ ⟨rfl, unread, rest, _, rfl⟩
  have above : ∀ {first second : Nat}, second = first + 1 → first < second := fun next => next ▸ Nat.lt_succ_self _
  have once : [graph.nextId, graph₁.nextId, graph₂.nextId, graph₃.nextId, graph₄.nextId, graph₅.nextId].Nodup :=
    (isChain_iff_pairwise.mp (by simp [above next₁, above next₂, above next₃, above next₄, above next₅])).imp
      (S := (· ≠ ·)) Nat.ne_of_lt
  refine ensures_pure ⟨_, unread, ?_, once, rest, rfl⟩
  simp only [nodup_cons, mem_cons, not_mem_nil, or_false, not_or] at once
  constructor <;> simp [once]

section Dressing

variable {scope : OwnerId} {values : CellId → Option Datum} {cells : Cells} {card : Card}

def dressedAttributes (card : Card) (attributes : Attributes) : Attributes :=
  withAttribute "style" (colorText card.tone) (withAttribute "class" (classText (classNames card)) attributes)

def togglesOf (card : Card) : Toggles := ⟨[("active", card.active)], [("color", card.tone)]⟩

def errand (watch : Watch (Procedure Code)) : CellId × Procedure Code Unit := (watch.cell, watch.task)

def dressErrands (cells : Cells) (parts : Parts) : List (CellId × Procedure Code Unit) :=
  [(cells.kind, .bind parts.root (.plain "class") (.cell cells.kind)),
    (cells.active, .bind parts.root (.toggle "active") (.cell cells.active)),
    (cells.tone, .bind parts.root (.style "color") (.cell cells.tone)),
    (cells.title, .bind parts.heading.parent (.plain "title") (.cell cells.title))]

theorem isWord_active : IsWord "active" := by decide

theorem apply_active (n : NodeId) (active : Bool) (doc : CardDocument) :
    (Binding.toggle "active").apply n (Datum.bool active).attribute? doc = bindClass doc n "active" active := by
  cases active <;> rfl

theorem apply_color (n : NodeId) (tone : Option String) (doc : CardDocument) :
    (Binding.style "color").apply n (toneDatum tone).attribute? doc = bindStyle doc n "color" tone := by
  rw [attribute?_toneDatum]
  rfl

theorem togglesIn_dressed (card : Card) (bare : properties = []) :
    togglesIn (rememberIn (fun toggles => { toggles with styles := putEntry "color" card.tone toggles.styles })
      (rememberIn (fun toggles => { toggles with classes := putEntry "active" card.active toggles.classes }) properties)) =
      some (togglesOf card) := by
  rw [togglesIn_rememberIn, togglesIn_rememberIn, bare]
  rfl

section

variable (placed : Placed world parts [] fixed) {kind : String} {active : Bool}
include placed

theorem Placed.bind_kind_first (none : togglesIn parts.properties = none)
    (equal : world' = { world with document := (Binding.plain "class").apply parts.root (some kind) world.document }) :
    Rebound world world' { parts with attributes := putEntry "class" kind parts.attributes } fixed :=
  placed.edit_root (edited_bindAttribute placed.standing.root_eq kind (.inl none)) equal

theorem Placed.bind_kind {toggles : Toggles} (remembered : togglesIn parts.properties = some toggles)
    (only : toggles.classes = [("active", active)])
    (equal : world' = { world with document := (Binding.plain "class").apply parts.root (some kind) world.document }) :
    Rebound world world' { parts with
      attributes := withAttribute "class" (classText (toggled (wordsOf kind) "active" active)) parts.attributes } fixed :=
  placed.edit_root (edited_bindAttribute_class placed.standing.root_eq kind isWord_active remembered only) equal

theorem Placed.bind_active (equal : world' =
      { world with document := (Binding.toggle "active").apply parts.root (Datum.bool active).attribute? world.document }) :
    Rebound world world' { parts with
      attributes := withAttribute "class" (classText (toggled (classesIn parts.attributes) "active" active)) parts.attributes
      properties := rememberIn (fun toggles => { toggles with classes := putEntry "active" active toggles.classes })
        parts.properties } fixed := by
  rw [apply_active] at equal
  exact placed.edit_root (edited_bindClass placed.standing.root_eq isWord_active active) equal

theorem Placed.bind_tone {tone : Option String} (closed : ∀ value ∈ tone, ';' ∉ value.toList)
    (only : OnlyColor parts.attributes) (equal : world' =
      { world with document := (Binding.style "color").apply parts.root (toneDatum tone).attribute? world.document }) :
    Rebound world world' { parts with
      attributes := withAttribute "style" (colorText tone) parts.attributes
      properties := rememberIn (fun toggles => { toggles with styles := putEntry "color" tone toggles.styles })
        parts.properties } fixed := by
  rw [apply_color] at equal
  exact placed.edit_root (edited_bindColor placed.standing.root_eq closed only) equal

theorem Placed.bind_title {title : String} (equal : world' = { world with
      document := (Binding.plain "title").apply parts.heading.parent (some title) world.document }) :
    Rebound world world' { parts with headingAttributes := putEntry "title" title parts.headingAttributes } fixed :=
  placed.edit_heading (edited_bindAttribute placed.standing.heading.self_eq title (.inr (by decide))) equal

end

theorem ensures_dress (placed : Placed world parts [] fixed) (wired : Wired graph scope [] values [])
    (rest : AtRest graph (some scope)) (holds : Holds values cells card)
    (closed : ∀ tone ∈ card.tone, ';' ∉ tone.toList) (bare : parts.properties = []) (only : OnlyColor parts.attributes)
    (titled : putEntry "title" card.title parts.headingAttributes = [("title", card.title)]) :
    (dress cells parts.root parts.heading.parent).Ensures (meaning host) 3 graph world fun _ graph' world' =>
      (∃ watches, Wired graph' scope [] values watches ∧ watches.map errand = dressErrands cells parts) ∧
      AtRest graph' (some scope) ∧ ∃ properties, togglesIn properties = some (togglesOf card) ∧
        Rebound world world' { parts with
          attributes := dressedAttributes card parts.attributes, properties
          headingAttributes := [("title", card.title)] } fixed := by
  refine (ensures_bindTo wired rest holds.kind rfl parts.root (.plain "class")).bind ?_
  rintro _ _ _ ⟨⟨wired, rest⟩, equal⟩
  have kind := placed.bind_kind_first (by rw [bare]; rfl) equal
  refine (ensures_bindTo wired rest holds.active rfl parts.root (.toggle "active")).bind ?_
  rintro _ _ _ ⟨⟨wired, rest⟩, equal⟩
  have active := kind.placed.bind_active equal
  have classes : classesIn (putEntry "class" card.kind parts.attributes) = wordsOf card.kind := by
    simp [classesIn, valueUnder?_putEntry]
  simp only [classes, withAttribute_putEntry] at active
  refine (ensures_bindTo wired rest holds.tone (fitsAttribute_toneDatum _) parts.root (.style "color")).bind ?_
  rintro _ _ _ ⟨⟨wired, rest⟩, equal⟩
  have plain : OnlyColor (withAttribute "class" (classText (classNames card)) parts.attributes) := by
    simpa [OnlyColor, valueUnder?_withAttribute] using only
  have tone := active.placed.bind_tone closed plain equal
  refine (ensures_bindTo wired rest holds.title rfl parts.heading.parent (.plain "title")).mono ?_
  rintro _ _ _ ⟨⟨wired, rest⟩, equal⟩
  have title := tone.placed.bind_title equal
  simp only [titled] at title
  exact ⟨⟨_, wired, rfl⟩, rest, _, togglesIn_dressed card bare, ((kind.trans active).trans tone).trans title⟩

end Dressing

section Showing

variable {scope : OwnerId} {cleanups : List (Procedure Code Unit)} {values : CellId → Option Datum}
  {watches : List (Watch (Procedure Code))} {cell : CellId} {value : Datum} {data : String}

/-- A line of a card has come to show a text for the first time. Over a line that shows the same already nothing
changes. -/
structure LineShown (world world' : CardWorld) (fixed : NodeId → Prop) (scope : OwnerId) (line : Line) (data : String)
    (parts : Parts) (line' : Line) : Prop where
  placed : Placed world' parts [] fixed
  data_eq : line'.data = data
  tended : ∃ region, Tended world' world.regions.size scope line' region
  beside : Beside world world' [] []
  host_eq : world'.host = world.host
  unchanged : ∀ m, fixed m → world'.document.node? m = world.document.node? m
  matched : world.isHydrating = true → line.data = data → world'.document.changes = world.document.changes ∧
    world'.hydration = world.hydration.count true ∧ line' = line

theorem Line.eq_of_kept {doc : CardDocument} {text : Option (NodeId × String)} (stands : line.Stands doc)
    (data_eq : Line.data { line with text } = data) (same : line.data = data)
    (kept : (line.text = none ↔ data = "") → Kept world world' line text) :
    world'.document.changes = world.document.changes ∧ world'.hydration = world.hydration.count true ∧
      { line with text } = line := by
  obtain ⟨changes, counts, node⟩ := kept (same ▸ stands.text_eq_none)
  obtain rfl := text_eq_of_kept node (data_eq.trans same.symm)
  exact ⟨changes, counts, rfl⟩

section

variable (placed : Placed world parts [] fixed) (wired : Wired graph scope cleanups values watches)
  (rest : AtRest graph (some scope)) (held : values cell = some value)
  (text : (View.ofDatum value : View Code) = .text data)
include placed wired rest held text

theorem ensures_show_title (blank : world.isHydrating = false → parts.heading.text = none ∧ parts.heading.tail = []) :
    (insert parts.heading.parent (.dynamic (.cell cell)) none).Ensures (meaning host) 3 graph world
      fun _ graph' world' =>
        Joined graph scope cleanups values watches cell (.refresh world.regions.size (.dynamic (.cell cell))) graph' ∧
        ∃ text, LineShown world world' fixed scope parts.heading data
          { parts with heading := { parts.heading with text } } { parts.heading with text } := by
  have stands := placed.standing.heading.stands
  cases hydrating : world.isHydrating with
  | false =>
    obtain ⟨none, past⟩ := blank hydrating
    have lays : Lays { parent := parts.heading.parent, owner := some scope } parts.heading :=
      ⟨rfl, by simp [Line.nodes, none], past⟩
    refine (introduces_insert wired rest held hydrating parts.heading.parent
      (answers_mounted text { parent := parts.heading.parent, owner := some scope } rfl)).mono ?_
    rintro _ _ _ ⟨joined, mounted⟩
    obtain ⟨host, beside, text, region, shown, tended⟩ :=
      shown_mounted stands rfl lays (fun _ => rfl) data (.inl placed.standing.heading_lead) mounted
    obtain ⟨placed', unchanged⟩ := placed.show_heading shown host
    exact ⟨joined, text, placed', shown.data_eq, ⟨region, tended⟩, beside, host, unchanged, by simp [hydrating]⟩
  | true =>
    refine (introduces_insert_claiming wired rest held hydrating parts.heading.parent
      (answers_mounted_claiming text { parent := parts.heading.parent, owner := some scope } rfl _)).mono ?_
    rintro _ _ _ ⟨joined, adopted⟩
    obtain ⟨host, beside, text, region, shown, tended, kept⟩ := shown_adopted stands rfl placed.standing.claims_heading
      rfl rfl rfl (fun _ => rfl) (fun _ => rfl) data adopted
    obtain ⟨placed', unchanged⟩ := placed.show_heading shown host
    exact ⟨joined, text, placed', shown.data_eq, ⟨region, tended⟩, beside, host, unchanged,
      fun _ same => Line.eq_of_kept stands shown.data_eq same kept⟩

theorem ensures_show_count (given : data ≠ "")
    (blank : world.isHydrating = false → parts.paragraph.text = none ∧ parts.paragraph.tail = [])
    (closed : world.isHydrating = true → parts.paragraph.tail ≠ []) :
    (insertAtMarker parts.marker (.dynamic (.cell cell))).Ensures (meaning host) 3 graph world
      fun _ graph' world' =>
        Joined graph scope cleanups values watches cell (.refresh world.regions.size (.dynamic (.cell cell))) graph' ∧
        ∃ text, LineShown world world' fixed scope parts.paragraph data
          { parts with paragraph := { parts.paragraph with text } } { parts.paragraph with text } := by
  have stands := placed.standing.paragraph.stands
  have above := parent?_of_node? placed.standing.marker_eq
  have lead := placed.standing.paragraph_lead
  cases hydrating : world.isHydrating with
  | false =>
    obtain ⟨none, _⟩ := blank hydrating
    have lays : Lays { parent := parts.paragraph.parent, start := some parts.marker, owner := some scope }
        parts.paragraph := ⟨rfl, by simp [Line.nodes, none], by simp [Bounded, lead]⟩
    refine (introduces_insertAtMarker wired rest held hydrating above (answers_mounted text _ rfl)).mono ?_
    rintro _ _ _ ⟨joined, mounted⟩
    obtain ⟨host, beside, text, region, shown, tended⟩ :=
      shown_mounted stands rfl lays (by simp [lead]) data (.inr given) mounted
    obtain ⟨placed', unchanged⟩ := placed.show_paragraph shown host
    exact ⟨joined, text, placed', shown.data_eq, ⟨region, tended⟩, beside, host, unchanged, by simp [hydrating]⟩
  | true =>
    obtain ⟨_, _, tail⟩ := exists_cons_of_ne_nil (closed hydrating)
    obtain ⟨claim, found, claims⟩ := placed.standing.claims_paragraph tail
    refine (introduces_insertAtMarker_claiming wired rest held hydrating above found
      (answers_mounted_claiming text _ rfl claim)).mono ?_
    rintro _ _ _ ⟨joined, adopted⟩
    obtain ⟨host, beside, text, region, shown, tended, kept⟩ := shown_adopted stands rfl claims rfl rfl rfl
      (by simp [tail]) (by simp [lead]) data adopted
    obtain ⟨placed', unchanged⟩ := placed.show_paragraph shown host
    exact ⟨joined, text, placed', shown.data_eq, ⟨region, tended⟩, beside, host, unchanged,
      fun _ same => Line.eq_of_kept stands shown.data_eq same kept⟩

end

theorem ensures_listen (placed : Placed world parts [] fixed) (wired : Wired graph scope [] values watches)
    (rest : AtRest graph (some scope)) (code : Code) :
    (listen parts.button "click" false code : CardProgram ListenerId).Ensures (meaning host) level graph world
      fun id graph' world' => Wired graph' scope [.unlisten parts.button id] values watches ∧ AtRest graph' (some scope) ∧
        Rebound world world' { parts with listeners := parts.listeners ++ [⟨id, "click", false, code⟩] } fixed := by
  let next : CardDocument := (world.document.addListener parts.button "click" false code).2
  have edited : Edited world.document next parts.button parts.buttonRecord { parts.buttonRecord with
      listeners := parts.listeners ++ [⟨world.document.nextListener, "click", false, code⟩] } := by
    obtain ⟨found, result, others, size, changes⟩ := edited_modifyNode placed.standing.button_eq fun node =>
      { node with listeners := node.listeners ++ [⟨world.document.nextListener, "click", false, code⟩] }
    exact ⟨found, result, others, size, changes⟩
  refine changing_then (currentOwner_then ?_)
  rw [rest.owner_eq]
  refine (ensures_onDispose wired rest).bind ?_
  rintro _ _ _ ⟨wired, rest, _, rfl⟩
  exact ensures_pure ⟨wired, rest, placed.edit_button edited rfl⟩

/-- The list of a card has come to show items for the first time. Over a list that shows the same already nothing
changes. -/
structure ListShown (world world' : CardWorld) (fixed : NodeId → Prop) (scope : OwnerId) (parts : Parts)
    (items : List String) (lines : List Line) : Prop where
  placed : Placed world' { parts with items := lines } [] fixed
  data_eq : lines.map Line.data = items
  tended : ∃ region, world'.regions[world.regions.size]? = some ⟨region, none⟩ ∧ region.owner = some scope ∧
    Enlists region { parts with items := lines }
  beside : Beside world world' [] []
  ready : items ≠ [] → (world'.host.root .item).isSome
  unchanged : ∀ m, fixed m → world'.document.node? m = world.document.node? m
  matched : world.isHydrating = true → ((world.host.root .item).isSome ∨ items = []) → parts.items.map Line.data = items →
    lines = parts.items ∧ world'.document.changes = world.document.changes ∧
      world'.hydration = { world.hydration with claims := world.hydration.claims + 2 * items.length + 1 }

theorem ensures_show_items (placed : Placed world parts [] fixed) (wired : Wired graph scope cleanups values watches)
    (rest : AtRest graph (some scope)) {items : List String} (held : values cell = some (itemsDatum items))
    (blank : world.isHydrating = false → parts.items = [] ∧ parts.tail = []) :
    (insert parts.list (.dynamic (.code (.items cell))) none : CardProgram Unit).Ensures (meaning host) 3 graph
      world fun _ graph' world' =>
        Joined graph scope cleanups values watches cell (.refresh world.regions.size (.dynamic (.code (.items cell)))) graph' ∧
        ∃ lines, ListShown world world' fixed scope parts items lines := by
  cases hydrating : world.isHydrating with
  | false =>
    obtain ⟨empty, past⟩ := blank hydrating
    let region : Region := { parent := parts.list, owner := some scope }
    have mounted : Placed (world.mounted region none) parts [] fixed := placed.congr rfl rfl
    have enlists : Enlists region parts := ⟨rfl, by simp [region, empty], past, rfl⟩
    refine (introduces_insert wired rest held hydrating parts.list
      (answers_refresh_items mounted (World.regions_mounted world region _) rfl enlists)).mono ?_
    rintro _ _ _ ⟨joined, lines, shown, listed⟩
    refine ⟨joined, lines, listed.placed, listed.data_eq, ⟨shown, listed.region_eq, listed.owned, listed.enlists⟩, ?_,
      listed.ready, listed.unchanged, by simp [hydrating]⟩
    exact (beside_mounted world region _).trans_new listed.beside.mono
  | true =>
    let region : Region := { parent := parts.list, owner := some scope }
    let claim := Claim.ofParent world.document parts.list
    have mounted : Placed ((world.claiming claim).mounted region (some world.claims.size)) parts [] fixed :=
      placed.congr rfl rfl
    have known : ((world.claiming claim).mounted region (some world.claims.size)).claims[world.claims.size]? = some claim := by
      simp [World.claiming, World.mounted]
    refine (introduces_insert_claiming wired rest held hydrating parts.list
      (answers_refresh_items_claiming mounted (World.regions_mounted (world.claiming claim) region _) rfl rfl rfl rfl rfl known
        placed.standing.claims_list rfl)).mono ?_
    rintro _ _ _ ⟨joined, lines, shown, listed, matched⟩
    refine ⟨joined, lines, listed.placed, listed.data_eq, ⟨shown, listed.region_eq, listed.owned, listed.enlists⟩, ?_,
      listed.ready, listed.unchanged, fun _ => matched⟩
    exact ((beside_claiming world claim).trans (beside_mounted _ region _)).trans_new listed.beside.mono

end Showing

section Furnishing

structure Setup where
  cells : Cells
  scope : OwnerId
  heading : RegionId
  count : RegionId
  list : RegionId
  listener : ListenerId

def errands (setup : Setup) (parts : Parts) : List (CellId × Procedure Code Unit) :=
  dressErrands setup.cells parts ++
    [(setup.cells.title, .refresh setup.heading (.dynamic (.cell setup.cells.title))),
      (setup.cells.count, .refresh setup.count (.dynamic (.cell setup.cells.count))),
      (setup.cells.items, .refresh setup.list (.dynamic (.code (.items setup.cells.items))))]

def Waiting (graph : CardGraph) (setup : Setup) (parts : Parts) (card : Card) : Prop :=
  ∃ values watches, Wired graph setup.scope [.unlisten parts.button setup.listener] values watches ∧
    Holds values setup.cells card ∧ watches.map errand = errands setup parts

structure Furnished (world : CardWorld) (setup : Setup) (parts : Parts) (fixed : NodeId → Prop) : Prop where
  placed : Placed world parts [] fixed
  heading : ∃ region, Tended world setup.heading setup.scope parts.heading region
  count : ∃ region, Tended world setup.count setup.scope parts.paragraph region
  list : ∃ region, world.regions[setup.list]? = some ⟨region, none⟩ ∧ region.owner = some setup.scope ∧
    Enlists region parts
  apart : [setup.heading, setup.count, setup.list].Nodup
  listeners : parts.listeners = [⟨setup.listener, "click", false, .raise setup.cells.count⟩]

structure Displays (parts : Parts) (card : Card) : Prop where
  title : parts.headingAttributes = [("title", card.title)]
  heading : parts.heading.data = card.title
  count : parts.paragraph.data = toString card.count
  items : parts.items.map Line.data = card.items
  toggles : togglesIn parts.properties = some (togglesOf card)

theorem Tended.beside {id : RegionId} {owner : OwnerId} {region : Region} {changed : List RegionId}
    {spent : List ClaimId} (tended : Tended world id owner line region) (beside : Beside world world' changed spent)
    (apart : id ∉ changed) : Tended world' id owner line region :=
  { tended with region_eq := beside.regions id apart _ tended.region_eq }

theorem Rebound.beside (rebound : Rebound world world' parts fixed) : Beside world world' [] [] := by
  rw [rebound.rest]
  exact { Beside.refl world [] [] with }

theorem Furnished.spared (furnished : Furnished world setup parts fixed) (changed : List RegionId)
    (regions : ∀ id ∉ changed, ∀ mounted, world.regions[id]? = some mounted → world'.regions[id]? = some mounted) :
    (setup.heading ∉ changed → ∃ region, Tended world' setup.heading setup.scope parts.heading region) ∧
    (setup.count ∉ changed → ∃ region, Tended world' setup.count setup.scope parts.paragraph region) ∧
    (setup.list ∉ changed → ∃ region, world'.regions[setup.list]? = some ⟨region, none⟩ ∧ region.owner = some setup.scope ∧
      Enlists region parts) := by
  obtain ⟨heading, tendedHeading⟩ := furnished.heading
  obtain ⟨count, tendedCount⟩ := furnished.count
  obtain ⟨list, found, rest⟩ := furnished.list
  exact ⟨fun apart => ⟨heading, { tendedHeading with region_eq := regions _ apart _ tendedHeading.region_eq }⟩,
    fun apart => ⟨count, { tendedCount with region_eq := regions _ apart _ tendedCount.region_eq }⟩,
    fun apart => ⟨list, regions _ apart _ found, rest⟩⟩

theorem walk_then {α : Type} {n m : NodeId} {path : String} {next : NodeId → CardProgram α}
    {post : α → CardGraph → CardWorld → Prop} (found : follow? world.document n path.toList = some m)
    (ensures : (next m).Ensures (meaning host) level graph world post) :
    (walk n path >>= next).Ensures (meaning host) level graph world post := by
  refine changing_then ?_
  beta_reduce
  rw [found]
  exact ensures

structure Matches (parts : Parts) (card : Card) : Prop where
  heading : parts.heading.data = card.title
  count : parts.paragraph.data = toString card.count
  items : parts.items.map Line.data = card.items

structure Furnishable (world : CardWorld) (parts : Parts) : Prop where
  properties : parts.properties = []
  listeners : parts.listeners = []
  color : OnlyColor parts.attributes
  title : ∀ title, putEntry "title" title parts.headingAttributes = [("title", title)]
  blank : world.isHydrating = false → (parts.heading.text = none ∧ parts.heading.tail = []) ∧
    (parts.paragraph.text = none ∧ parts.paragraph.tail = []) ∧ parts.items = [] ∧ parts.tail = []
  closed : world.isHydrating = true → parts.paragraph.tail ≠ []

variable {scope : OwnerId} {values : CellId → Option Datum} {cells : Cells} {card : Card}

theorem ensures_furnish (placed : Placed world parts [] fixed) (furnishable : Furnishable world parts)
    (wired : Wired graph scope [] values []) (rest : AtRest graph (some scope)) (holds : Holds values cells card)
    (closed : ∀ tone ∈ card.tone, ';' ∉ tone.toList) :
    (furnish cells parts.root).Ensures (meaning host) 3 graph world fun _ graph' world' =>
      ∃ setup parts', setup.cells = cells ∧ setup.scope = scope ∧ Waiting graph' setup parts' card ∧
        AtRest graph' (some scope) ∧ Furnished world' setup parts' fixed ∧ Displays parts' card ∧
        parts'.attributes = dressedAttributes card parts.attributes ∧ parts'.root = parts.root ∧
        parts'.above = parts.above ∧ Beside world world' [] [] ∧ (card.items ≠ [] → (world'.host.root .item).isSome) ∧
        (∀ m, fixed m → world'.document.node? m = world.document.node? m) ∧
        (world.isHydrating = true → ((world.host.root .item).isSome ∨ card.items = []) → Matches parts card →
          parts'.heading = parts.heading ∧ parts'.paragraph = parts.paragraph ∧ parts'.items = parts.items ∧
          parts'.tail = parts.tail ∧ world'.document.changes = world.document.changes ∧
          world'.hydration = { world.hydration with claims := world.hydration.claims + 2 * card.items.length + 3 }) := by
  have standing := placed.standing
  refine walk_then standing.follow_heading (walk_then standing.follow_paragraph (walk_then standing.follow_marker
    (walk_then standing.follow_button (walk_then standing.follow_list ?_))))
  refine (ensures_dress placed wired rest holds closed furnishable.properties furnishable.color (furnishable.title _)).bind ?_
  rintro _ _ world₁ ⟨⟨_, wired, dressed⟩, rest, properties, remembered, bound⟩
  have hydrating₁ : world₁.isHydrating = world.isHydrating := bound.beside.isHydrating
  refine (ensures_show_title bound.placed wired rest holds.title rfl fun idle =>
    (furnishable.blank (hydrating₁ ▸ idle)).1).bind ?_
  rintro _ _ world₂ ⟨⟨wired, rest⟩, title, titled⟩
  have hydrating₂ : world₂.isHydrating = world.isHydrating := titled.beside.isHydrating.trans hydrating₁
  refine (ensures_show_count titled.placed wired rest holds.count rfl (toString_ne_empty card.count)
    (fun idle => (furnishable.blank (hydrating₂ ▸ idle)).2.1) fun busy => furnishable.closed (hydrating₂ ▸ busy)).bind ?_
  rintro _ _ world₃ ⟨⟨wired, rest⟩, count, counted⟩
  have hydrating₃ : world₃.isHydrating = world.isHydrating := counted.beside.isHydrating.trans hydrating₂
  refine (ensures_listen counted.placed wired rest (.raise cells.count)).bind ?_
  rintro listener _ world₄ ⟨wired, rest, heard⟩
  have hydrating₄ : world₄.isHydrating = world.isHydrating := heard.beside.isHydrating.trans hydrating₃
  refine (ensures_show_items heard.placed wired rest holds.items fun idle =>
    (furnishable.blank (hydrating₄ ▸ idle)).2.2).mono ?_
  rintro _ _ _ ⟨⟨wired, rest⟩, lines, listed⟩
  obtain ⟨_, tendedTitle⟩ := titled.tended
  obtain ⟨_, tendedCount⟩ := counted.tended
  have tendedTitle' := (tendedTitle.beside counted.beside (by simp)).beside heard.beside (by simp)
  have tendedCount' := tendedCount.beside heard.beside (by simp)
  have first : world₁.regions.size < world₂.regions.size := (Array.getElem?_eq_some_iff.mp tendedTitle.region_eq).1
  have second : world₁.regions.size < world₄.regions.size := (Array.getElem?_eq_some_iff.mp tendedTitle'.region_eq).1
  have third : world₂.regions.size < world₄.regions.size := (Array.getElem?_eq_some_iff.mp tendedCount'.region_eq).1
  let parts' : Parts := { parts with
    attributes := dressedAttributes card parts.attributes, properties, headingAttributes := [("title", card.title)]
    heading := { parts.heading with text := title }, paragraph := { parts.paragraph with text := count }
    listeners := parts.listeners ++ [⟨listener, "click", false, .raise cells.count⟩], items := lines }
  refine ⟨⟨cells, scope, world₁.regions.size, world₂.regions.size, world₄.regions.size, listener⟩, parts', rfl, rfl,
    ⟨values, _, wired, holds, ?_⟩, rest,
    ⟨listed.placed, ⟨_, tendedTitle'.beside listed.beside (by simp)⟩, ⟨_, tendedCount'.beside listed.beside (by simp)⟩,
      listed.tended, ?_, ?_⟩,
    ⟨rfl, titled.data_eq, counted.data_eq, listed.data_eq, remembered⟩, rfl, rfl, rfl,
    (((bound.beside.trans titled.beside).trans counted.beside).trans heard.beside).trans listed.beside, listed.ready, fun m here => ?_,
    fun busy parsed same => ?_⟩
  · rw [map_append, map_append, map_append, dressed]
    rfl
  · simp [first.ne, second.ne, third.ne]
  · simp [parts', furnishable.listeners]
  · rw [listed.unchanged m here, heard.unchanged m here, counted.unchanged m here, titled.unchanged m here,
      bound.unchanged m here]
  · obtain ⟨changes₂, counts₂, heading⟩ := titled.matched (hydrating₁ ▸ busy) same.heading
    obtain ⟨changes₃, counts₃, paragraph⟩ := counted.matched (hydrating₂ ▸ busy) same.count
    have host₄ : world₄.host.root .item = world.host.root .item := by
      rw [heard.rest, counted.host_eq, titled.host_eq, bound.rest]
    obtain ⟨items, changes₅, counts₅⟩ := listed.matched (hydrating₄ ▸ busy) (host₄ ▸ parsed) same.items
    have counts₁ : world₁.hydration = world.hydration := by rw [bound.rest]
    have counts₄ : world₄.hydration = world₃.hydration := by rw [heard.rest]
    refine ⟨heading, paragraph, items, rfl, ?_, ?_⟩
    · rw [changes₅, heard.changes_eq, changes₃, changes₂, bound.changes_eq]
    · rw [counts₅, counts₄, counts₃, counts₂, counts₁]
      simp only [Hydration.count, if_true, Hydration.mk.injEq, and_true]
      omega

end Furnishing

end LiveMarkup.Card
