import LiveMarkup.Proofs.CardContainers

/-!
Taking over a server's card. The client's card is built over the nodes that the server sent: what shows the same is
taken as it is, what differs is patched or made anew, and in the end the container shows what the client's card shows when
it is rendered by itself.
-/

namespace LiveMarkup.Markup.Tree
open Markup.Tree

mutual

def uncommented : Tree → Tree
  | .element tag svg attributes children => .element tag svg attributes (uncommentedAll children)
  | tree => tree

def uncommentedAll : List Tree → List Tree
  | [] => []
  | .comment _ :: rest => uncommentedAll rest
  | tree :: rest => uncommented tree :: uncommentedAll rest

end

mutual

theorem same_self (tree : Tree) : same tree tree = true := by
  match tree with
  | .text _ | .comment _ => simp [same]
  | .element _ _ _ children =>
    simp [same, Document.sameAttributes_self, sameAll_self children]

theorem sameAll_self (trees : List Tree) : same.sameAll trees trees = true := by
  match trees with
  | [] => rfl
  | tree :: trees => simp [same.sameAll, same_self tree, sameAll_self trees]

end

theorem uncommentedAll_append (first second : List Tree) :
    uncommentedAll (first ++ second) = uncommentedAll first ++ uncommentedAll second := by
  induction first with
  | nil => simp [uncommentedAll]
  | cons tree _ ih => cases tree <;> simp [uncommentedAll, ih]

theorem uncommentedAll_comments {α : Type} (items : List α) (data : String) :
    uncommentedAll (items.map fun _ => .comment data) = [] := by
  induction items with
  | nil => rfl
  | cons _ _ ih => rw [List.map_cons, uncommentedAll, ih]

end LiveMarkup.Markup.Tree

namespace LiveMarkup.Live
open Markup Document Markup.Tree Procedure

variable {a b : Attributes}

theorem mem_iff_valueUnder? {α : Type} {entries : List (String × α)} (once : (entries.map Prod.fst).Nodup) {name : String}
    {value : α} :
    (name, value) ∈ entries ↔ valueUnder? entries name = some value := by
  induction entries with
  | nil => simp [valueUnder?]
  | cons entry entries ih =>
    obtain ⟨n, _⟩ := entry
    rw [List.map_cons, List.nodup_cons] at once
    simp only [valueUnder?] at ih
    by_cases here : n = name
    · subst here
      have absent : ∀ w, (n, w) ∉ entries := fun w mem => once.1 (List.mem_map.mpr ⟨_, mem, rfl⟩)
      simp [valueUnder?, absent, eq_comm]
    · have apart : ¬ name = n := fun h => here h.symm
      simp [valueUnder?, here, apart, ih once.2]

theorem sameAttributes_of_values (onceA : (a.map Prod.fst).Nodup) (onceB : (b.map Prod.fst).Nodup)
    (same : ∀ name, valueUnder? a name = valueUnder? b name) : sameAttributes a b = true := by
  have both : ∀ entry, entry ∈ a ↔ entry ∈ b := fun (name, value) => by
    rw [mem_iff_valueUnder? onceA, mem_iff_valueUnder? onceB, same]
  have perm : a.Perm b := (List.perm_ext_iff_of_nodup onceA.of_map onceB.of_map).mpr both
  simp only [sameAttributes, Bool.and_eq_true, beq_iff_eq, List.all_eq_true]
  exact ⟨perm.length_eq, fun entry mem => by simpa using (both entry).mp mem⟩

end LiveMarkup.Live

namespace LiveMarkup.Card
open Document Live Markup Reactive Text Markup.Tree Program Procedure

variable {level : Nat} {graph : CardGraph} {world world' : CardWorld} {fixed : NodeId → Prop} {parts : Parts}
  {container : NodeId} {scope : OwnerId} {values : CellId → Option Datum} {cells : Cells} {server card : Card}
  {parts' : Parts}

section Looks

variable {doc : CardDocument}

def shownTrees (card : Card) : List Tree :=
  [.element "h1" false [("title", card.title)] (lineTrees false card.title),
    .element "p" false [] (.text "Count: " :: lineTrees false (toString card.count)),
    .element "button" false [] [.text "+"],
    .element "ul" false [] (card.items.map (itemTree false))]

theorem uncommentedAll_lineTrees {line : Line} (stands : line.Stands doc) :
    uncommentedAll line.trees = lineTrees false line.data := by
  rw [Line.trees, uncommentedAll_append, uncommentedAll_comments, lineTrees]
  cases shown : line.text with
  | none => simp [Line.data, shown, endTrees, uncommentedAll]
  | some entry =>
    have some := stands.nonempty entry shown
    simp [Line.data, shown, some, endTrees, uncommentedAll, uncommented]

theorem uncommentedAll_items {lines : List Line} (stand : ∀ line ∈ lines, line.Stands doc) :
    uncommentedAll (lines.map fun line => .element "li" false [] line.trees) =
      (lines.map Line.data).map (itemTree false) := by
  induction lines with
  | nil => rfl
  | cons line _ ih =>
    simp only [List.map_cons, uncommentedAll, uncommented, uncommentedAll_lineTrees (stand line (by simp)),
      ih fun other mem => stand other (by simp [mem])]
    rfl

theorem uncommented_tree (standing : Standing doc parts) (displays : Displays parts card) :
    parts.tree.uncommented = .element "div" false parts.attributes (shownTrees card) := by
  have items := uncommentedAll_items fun line mem => (standing.items line mem).1.stands
  simp only [Parts.tree, shownTrees, uncommented, uncommentedAll, uncommentedAll_append,
    uncommentedAll_comments, items, uncommentedAll_lineTrees standing.heading.stands,
    uncommentedAll_lineTrees standing.paragraph.stands, displays.title, displays.heading, displays.count, displays.items,
    List.append_nil]

theorem valueUnder?_dressed (card : Card) (attrs : Attributes) (name : String) :
    valueUnder? (dressedAttributes card attrs) name =
      if name = "style" then colorText card.tone else if name = "class" then classText (classNames card)
      else valueUnder? attrs name := by
  rw [dressedAttributes, valueUnder?_withAttribute, valueUnder?_withAttribute]

theorem valueUnder?_server (card : Card) (name : String) : valueUnder? (serverAttributes card) name =
      if name = "class" then classText (classNames card) else if name = "style" then card.tone.map Style.color else none := by
  unfold serverAttributes
  by_cases isClass : name = "class"
  · subst isClass
    cases classText (classNames card) <;> cases card.tone <;> simp [valueUnder?]
  · have notClass : ¬ "class" = name := fun same => isClass same.symm
    by_cases isStyle : name = "style"
    · subst isStyle
      cases classText (classNames card) <;> cases card.tone <;> simp [valueUnder?]
    · have notStyle : ¬ "style" = name := fun same => isStyle same.symm
      cases classText (classNames card) <;> cases card.tone <;>
        simp [valueUnder?, isClass, isStyle, notClass, notStyle]

theorem sameAttributes_dressed (server card : Card) :
    sameAttributes (dressedAttributes card (serverAttributes server)) (dressedAttributes card []) = true := by
  have once := (ordinaryNames_server server).2
  refine sameAttributes_of_values (nodup_withAttribute (nodup_withAttribute once _ _) _ _)
    (nodup_withAttribute (nodup_withAttribute (by simp) _ _) _ _) fun name => ?_
  rw [valueUnder?_dressed, valueUnder?_dressed]
  split
  · rfl
  · split
    · rfl
    · rename_i notStyle notClass
      rw [valueUnder?_server, if_neg notClass, if_neg notStyle]
      rfl

theorem dressedAttributes_server (tidy : ∀ tone ∈ card.tone, trimmed tone = tone) :
    dressedAttributes card (serverAttributes card) = serverAttributes card := by
  have colored : colorText card.tone = card.tone.map Style.color := by
    cases tone : card.tone with
    | none => simp [colorText]
    | some value => simp [colorText, tidy value tone]
  have named : withAttribute "class" (classText (classNames card)) (serverAttributes card) = serverAttributes card :=
    withAttribute_same (by rw [valueUnder?_server, if_pos rfl])
  rw [dressedAttributes, named, colored]
  exact withAttribute_same (by rw [valueUnder?_server, if_neg (by decide), if_pos rfl])

end Looks

theorem onlyColor_server (closed : ∀ tone ∈ server.tone, ';' ∉ tone.toList) : OnlyColor (serverAttributes server) := by
  unfold OnlyColor
  rw [valueUnder?_server]
  cases tone : server.tone with
  | none => exact .inl rfl
  | some value => exact .inr ⟨Style.color value, _, rfl, Style.parse_color (closed value tone)⟩

theorem Served.furnishable (served : Served parts server) (closed : ∀ tone ∈ server.tone, ';' ∉ tone.toList)
    (busy : world.isHydrating = true) : Furnishable world parts := by
  refine ⟨served.properties_eq, served.listeners_eq, ?_, fun title => ?_, by simp [busy], fun _ => served.closed⟩
  · rw [served.attributes_eq]
    exact onlyColor_server closed
  · rw [served.title_eq]
    rfl

structure SameLines (parts parts' : Parts) : Prop where
  heading_eq : parts'.heading = parts.heading
  paragraph_eq : parts'.paragraph = parts.paragraph
  items_eq : parts'.items = parts.items
  tail_eq : parts'.tail = parts.tail

def Parsed (world : CardWorld) (card : Card) : Prop := (world.host.root .card).isSome ∧ ((world.host.root .item).isSome ∨ card.items = [])

structure BuiltOver (graph' : CardGraph) (world world' : CardWorld) (fixed : NodeId → Prop) (card : Card) (scope : OwnerId)
    (parts : Parts) (claims : Nat) (setup : Setup) (parts' : Parts) : Prop where
  following : Following graph' world' setup parts' card fixed
  scope_eq : setup.scope = scope
  root_eq : parts'.root = parts.root
  above_eq : parts'.above = parts.above
  attributes_eq : parts'.attributes = dressedAttributes card parts.attributes
  unchanged : ∀ m, fixed m → world'.document.node? m = world.document.node? m
  matched : Parsed world card → Matches parts card → SameLines parts parts' ∧
    world'.document.changes = world.document.changes ∧
    world'.hydration = { world.hydration with claims := world.hydration.claims + 2 * card.items.length + claims }

theorem ensures_build_claimed {id : ClaimId} {claim : Claim} (placed : Placed world parts [] fixed)
    (served : Served parts server) (framed : world.frames = [.claiming id]) (found : world.claims[id]? = some claim)
    (next : claim.next = some parts.root) (open_ : claim.ending = none) (wired : Wired graph scope [] values [])
    (rest : AtRest graph (some scope)) (holds : Holds values cells card)
    (serverClosed : ∀ tone ∈ server.tone, ';' ∉ tone.toList) (closed : ∀ tone ∈ card.tone, ';' ∉ tone.toList) :
    (build cells).Ensures (meaning host) 3 graph world fun view graph' world' => view = .node parts.root ∧
      AtRest graph' (some scope) ∧ Beside world world' [] [id] ∧
      (∃ claim', world'.claims[id]? = some claim' ∧ claim'.first = claim.first ∧ claim'.ending = none) ∧
      ∃ setup parts', setup.cells = cells ∧ BuiltOver graph' world world' fixed card scope parts 4 setup parts' := by
  obtain ⟨kept, reserved, apart⟩ := placed.kept
  refine (ensures_template .card reserved.toHosted).bind ?_
  rintro template _ ready ⟨rfl, at_hand, near, same, _, prepared⟩
  obtain ⟨here, still⟩ := placed.prepare reserved prepared apart
  have framed' : ready.frames = [.claiming id] := near.frames_eq.trans framed
  have found' : ready.claims[id]? = some claim := near.claims id (by simp) claim found
  have positive : 0 < ready.document.nodes.size := Nat.lt_of_lt_of_le (by decide) here.standing.large
  refine (ensures_instantiate_claimed (tag?_of_shows (prepared.hosted.shows .card template at_hand)) framed' found' next
    (by simp [open_]) (kind_of_node? here.standing.root_eq) positive).bind ?_
  rintro _ _ _ ⟨rfl, rfl, rfl⟩
  have taken : Placed (advanced ready id { claim with next := ready.document.next? parts.root }) parts [] fixed :=
    here.congr rfl rfl
  have busy : (advanced ready id { claim with next := ready.document.next? parts.root }).isHydrating = true := by
    simp [World.isHydrating, advanced, framed']
  refine (ensures_furnish taken (served.furnishable serverClosed busy) wired rest holds closed).bind ?_
  rintro _ _ _ ⟨setup, parts', cells_eq, scope_eq, waiting, resting, furnished, displays, dressed, root, up, beside,
    _, unchanged, matched⟩
  refine ensures_pure ⟨rfl, resting, (near.mono.trans (beside_advanced ready id _)).trans beside.mono,
    ⟨{ claim with next := ready.document.next? parts.root }, ?_, rfl, open_⟩, setup, parts', cells_eq,
    ⟨waiting, furnished, displays⟩, scope_eq, root, up, dressed, fun m kept => ?_, fun parsed shown => ?_⟩
  · exact beside.claims id (by simp) _ (by simp [advanced, Array.getElem?_modify, found'])
  · exact (unchanged m kept).trans (still m kept)
  · obtain rfl := same parsed.1
    obtain ⟨heading, paragraph, items, tail, changes, counts⟩ := matched busy parsed.2 shown
    refine ⟨⟨heading, paragraph, items, tail⟩, changes, ?_⟩
    rw [counts]
    simp only [advanced, Hydration.count, if_true, Hydration.mk.injEq, and_true]
    omega

section Hydrating

variable {claim : Claim} {id : ClaimId} {setup : Setup}

structure TakenOver (graph' : CardGraph) (world world' : CardWorld) (fixed : NodeId → Prop) (card : Card)
    (container : NodeId) (parts : Parts) (hydration : Hydration) (setup : Setup) (parts' : Parts) : Prop where
  following : Following graph' world' setup parts' card (withContainer container fixed)
  rest : AtRest graph' none
  frames_eq : world'.frames = []
  housed : Housed world'.document container parts'
  attributes_eq : parts'.attributes = dressedAttributes card parts.attributes
  unchanged : ∀ m, fixed m → world'.document.node? m = world.document.node? m
  matched : Parsed world card → Matches parts card → SameLines parts parts' ∧
    world'.document.changes = world.document.changes ∧ hydration = { claims := 5 + 2 * card.items.length, misses := 0 }

theorem claims_container {doc : CardDocument} (housed : Housed doc container parts) :
    Claims (Claim.ofParent doc container) [parts.root] [] := by
  refine claims_ofParent (by simpa using housed.lists) ?_ (by simp [Closes])
  intro n mem
  rw [List.mem_singleton.mp mem]
  exact Standing.not_comment (tag?_of_node? housed.standing.root_eq)

section

variable (document : world'.document = world.document) (host : world'.host = world.host)
  (regions : ∀ (id : RegionId) mounted, world.regions[id]? = some mounted → world'.regions[id]? = some mounted)
include document host regions

theorem Furnished.still (furnished : Furnished world setup parts fixed) : Furnished world' setup parts fixed := by
  obtain ⟨heading, count, list⟩ := furnished.spared [] fun id _ => regions id
  exact ⟨furnished.placed.congr document host, heading (by simp), count (by simp), list (by simp), furnished.apart,
    furnished.listeners⟩

theorem Following.still (following : Following graph world setup parts card fixed) :
    Following graph world' setup parts card fixed :=
  ⟨following.waiting, following.furnished.still document host regions, following.displays⟩

end

theorem ensures_mount_root (housed : Housed world.document container parts) (claims : Claims claim [parts.root] [])
    (found : world.claims[id]? = some claim) (under : graph.owner = some scope) (alive : graph.ownerAlive scope = true) :
    (mount { parent := container } (.node parts.root) (some id) : CardProgram Unit).Ensures (meaning host) level
      graph world fun _ graph' world' => graph' = graph ∧ world'.document = world.document ∧
        world'.hydration = world.hydration.count true ∧ world'.host = world.host ∧ Beside world world' [] [] := by
  let region : Region := { parent := container, owner := some scope }
  have solid := isFragment_root housed.standing
  have lists : world.document.Lists region.parent ([] ++ ([parts.root] ++ [])) := by simpa using housed.lists
  have fitting : Fitting world.document region.parent [] [parts.root] [] :=
    ⟨by simp, by simpa using solid, by simp, fun n mem => .inr (housed.lists.parents n mem)⟩
  have adopted := @refilled_adopt _ _ world.document region _ _ _ _ claim lists claims rfl rfl rfl fitting
  obtain ⟨taken, same⟩ := adopted.2.2 rfl
  refine (ensures_mount_fixed_claiming (fixed_node solid) under alive { parent := container } found).mono ?_
  rintro _ _ _ ⟨rfl, rfl⟩
  refine ⟨rfl, same, ?_, rfl, (beside_mounted world _ _).trans_new (beside_adopted _ _ _ _ _)⟩
  exact congrArg world.hydration.count taken

theorem ensures_build_inFrame (placed : Placed world parts [] fixed) (served : Served parts server) (framed : world.frames = [])
    (found : world.claims[id]? = some claim) (claims : Claims claim [parts.root] []) (next : claim.next = some parts.root)
    (wired : Wired graph scope [] values []) (rest : AtRest graph (some scope)) (holds : Holds values cells card)
    (serverClosed : ∀ tone ∈ server.tone, ';' ∉ tone.toList) (closed : ∀ tone ∈ card.tone, ';' ∉ tone.toList) :
    (inFrame (.claiming id) (build cells)).Ensures (meaning host) 3 graph world fun view graph' world' =>
      view = .node parts.root ∧ AtRest graph' (some scope) ∧ world'.frames = [] ∧
      (∃ claim', world'.claims[id]? = some claim' ∧ Claims claim' [parts.root] []) ∧
      ∃ setup parts', setup.cells = cells ∧ BuiltOver graph' world world' fixed card scope parts 4 setup parts' := by
  have placed' : Placed { world with frames := .claiming id :: world.frames } parts [] fixed := placed.congr rfl rfl
  have framed' : Live.Frame.claiming id :: world.frames = [.claiming id] := by rw [framed]
  refine ensures_inFrame ((ensures_build_claimed placed' served framed' found next claims.ending_eq wired rest holds
    serverClosed closed).mono ?_)
  rintro _ _ _ ⟨rfl, resting, beside, ⟨claim', found', first, ending⟩, setup, parts', cells_eq, upon⟩
  refine ⟨rfl, resting, ?_, ⟨claim', found', first.trans claims.first_eq, ending⟩, setup, parts', cells_eq,
    { upon with following := upon.following.still (by rfl) (by rfl) (by simp) }⟩
  rw [beside.frames_eq]
  exact framed

theorem BuiltOver.ensures_mount {before : CardWorld}
    (upon : BuiltOver graph before world (withContainer container fixed) card scope parts 4 setup parts')
    (housed : Housed before.document container parts) (fresh : before.hydration = {}) (framed : world.frames = [])
    (found : world.claims[id]? = some claim) (claims : Claims claim [parts.root] []) (rest : AtRest graph (some scope)) :
    (mount { parent := container } (.node parts.root) (some id) : CardProgram Unit).Ensures (meaning host) level
      graph world fun _ graph' world' => AtRest graph' (some scope) ∧
        TakenOver { graph' with owner := none, observer := none } before world' fixed card container parts world'.hydration
          setup parts' := by
  have housed' : Housed world.document container parts' := by
    refine ⟨upon.following.furnished.placed.standing, ?_, upon.above_eq.trans housed.above_eq⟩
    rw [upon.unchanged container (.inl rfl), upon.root_eq]
    exact housed.container_eq
  have alive : graph.ownerAlive scope = true := upon.scope_eq ▸ upon.following.waiting.alive
  rw [← upon.root_eq] at claims ⊢
  refine (ensures_mount_root housed' claims found rest.owner_eq alive).mono ?_
  rintro _ _ _ ⟨rfl, document, counts, host_eq, beside⟩
  have follows := upon.following.still document host_eq fun id mounted there => beside.regions id (by simp) mounted there
  refine ⟨rest, ⟨?_, follows.furnished, follows.displays⟩, { rest with owner_eq := rfl, observer_eq := rfl },
    beside.frames_eq.trans framed, ?_, upon.attributes_eq, fun m here => ?_, fun parsed shown => ?_⟩
  · obtain ⟨values, watches, wired, holds, errands⟩ := follows.waiting
    exact ⟨values, watches, wired.congr rfl rfl rfl, holds, errands⟩
  · rw [document]
    exact housed'
  · rw [document]
    exact upon.unchanged m (.inr here)
  · obtain ⟨lines, changes, hydration⟩ := upon.matched parsed shown
    refine ⟨lines, (congrArg Document.changes document).trans changes, ?_⟩
    rw [counts, hydration, fresh]
    simp only [Hydration.count, if_true, Hydration.mk.injEq, and_true]
    omega

theorem ensures_hydrate (placed : Placed world parts [] (withContainer container fixed))
    (housed : Housed world.document container parts) (served : Served parts server) (framed : world.frames = [])
    (unread : Unread graph values) (rest : AtRest graph none) (holds : Holds values cells card)
    (serverClosed : ∀ tone ∈ server.tone, ';' ∉ tone.toList) (closed : ∀ tone ∈ card.tone, ';' ∉ tone.toList) :
    (hydrate (build cells) container).Ensures (meaning host) 3 graph world fun result graph' world' =>
      ∃ setup parts', setup.cells = cells ∧ setup.scope = result.1 ∧
        TakenOver graph' world world' fixed card container parts result.2 setup parts' := by
  let start : CardWorld :=
    { world with hydration := {}, claims := world.claims.push (Claim.ofParent world.document container) }
  have placed' : Placed start parts [] (withContainer container fixed) := placed.congr rfl rfl
  have found : start.claims[world.claims.size]? = some (Claim.ofParent world.document container) := by simp [start]
  have claims := claims_container housed
  let program : CardProgram Unit := do
    let view ← inFrame (.claiming world.claims.size) (build cells)
    mount { parent := container } view (some world.claims.size)
  have under : ∀ graph', Wired graph' graph.nextId [] values [] → AtRest graph' (some graph.nextId) →
      program.Ensures (meaning host) 3 graph' start fun _ graph'' world' =>
        AtRest graph'' (some graph.nextId) ∧ ∃ setup parts', setup.cells = cells ∧ setup.scope = graph.nextId ∧
          TakenOver { graph'' with owner := none, observer := none } world world' fixed card container parts
            world'.hydration setup parts' := by
    intro graph' wired resting
    refine (ensures_build_inFrame placed' served framed found claims claims.first_eq wired resting holds serverClosed
      closed).bind ?_
    rintro _ graph'' _ ⟨rfl, resting, empty, ⟨_, found', claims'⟩, setup, parts', cells_eq, upon⟩
    refine (upon.ensures_mount housed rfl empty found' claims' resting).mono ?_
    rintro _ _ _ ⟨resting, taken⟩
    exact ⟨resting, setup, parts', cells_eq, upon.scope_eq, { taken with }⟩
  refine altering_then (seeing_then (changing_then ?_))
  show (underRoot program >>= _).Ensures _ 3 graph start _
  refine (ensures_underRoot (fun _ graph' world' => ∃ setup parts', setup.cells = cells ∧ setup.scope = graph.nextId ∧
    TakenOver graph' world world' fixed card container parts world'.hydration setup parts') unread rest under).bind ?_
  rintro ⟨_, _⟩ _ _ ⟨rfl, _, setup, parts', cells_eq, scope_eq, taken⟩
  exact seeing_then (ensures_pure ⟨setup, parts', cells_eq, scope_eq, taken⟩)

end Hydrating

section Handover

/-- Nodes hold the same, but for comments and the order of attributes. -/
def SameButComments (doc : CardDocument) (n m : NodeId) : Prop :=
  Tree.same.sameAll (Tree.uncommentedAll (doc.trees [n])) (Tree.uncommentedAll (doc.trees [m])) = true

theorem Housed.uncommented_trees {doc : CardDocument} (housed : Housed doc container parts) (displays : Displays parts card) :
    uncommentedAll (doc.trees [container]) =
      [.element "main" false [] [.element "div" false parts.attributes (shownTrees card)]] := by
  rw [housed.trees, ← uncommented_tree housed.standing displays]
  rfl

theorem Housed.same {doc : CardDocument} {one two : Parts} {first second : NodeId} (here : Housed doc first one)
    (there : Housed doc second two) (displays : Displays one card) (displays' : Displays two card)
    (same : Tree.sameAttributes one.attributes two.attributes = true) : SameButComments doc first second := by
  rw [SameButComments, here.uncommented_trees displays, there.uncommented_trees displays']
  simp [Tree.same.sameAll, Tree.same, Document.sameAttributes_self, Tree.sameAll_self, same]

/-- What is seen when a card takes over a server's markup. -/
structure Handover where
  /-- The container with the server's markup. -/
  container : NodeId
  before : String
  after : String
  hydration : Hydration
  changes : Changes
  /-- A container into which the same card is rendered by itself. -/
  fresh : NodeId

/-- Renders some cards by themselves, then the client's card over the server's markup, and then the client's card by
itself. -/
def handover (earlier : List Card) (server client : Card) : CardProgram Handover := do
  earlier.forM fun card => do let _ ← freshContainer card
  let container ← containerOf server.markup
  let before ← seeDocument (·.inner container)
  let cells ← newCells client
  let ((_, hydration), changes) ← measured (hydrate (build cells) container)
  let after ← seeDocument (·.inner container)
  let fresh ← freshContainer client
  return { container, before, after, hydration, changes, fresh }

theorem ensures_rehearsal {earlier : List Card} (idle : Idle graph world fun _ => False)
    (closed : ∀ card ∈ earlier, ∀ tone ∈ card.tone, ';' ∉ tone.toList) :
    (earlier.forM fun card => do let _ ← freshContainer card : CardProgram Unit).Ensures (meaning host) 3 graph
      world fun _ graph' world' => Idle graph' world' (fun _ => False) ∧ Beside world world' [] [] ∧
        ∀ card ∈ earlier, (world'.host.root .card).isSome ∧ (card.items ≠ [] → (world'.host.root .item).isSome) := by
  induction earlier generalizing graph world with
  | nil => exact ensures_pure ⟨idle, .refl world [] [], by simp⟩
  | cons card _ ih =>
    refine (ensures_freshContainer idle (closed card (by simp))).bind ?_
    rintro _ _ _ ⟨_, rendered⟩
    refine (ih (rendered.idle.mono (by simp)) fun other mem => closed other (by simp [mem])).mono ?_
    rintro _ _ _ ⟨idle, beside, parsed⟩
    refine ⟨idle, rendered.beside.trans beside, fun other mem => ?_⟩
    rcases List.mem_cons.mp mem with rfl | later
    · obtain ⟨root, found⟩ := Option.isSome_iff_exists.mp rendered.card_parsed
      refine ⟨by simp [beside.templates .card root found], fun some => ?_⟩
      obtain ⟨item, found⟩ := Option.isSome_iff_exists.mp (rendered.item_parsed some)
      simp [beside.templates .item item found]
    · exact parsed other later

theorem ensures_measured {ι : Type} {program : CardProgram ι} {post : ι → CardGraph → CardWorld → Prop}
    (ran : program.Ensures (meaning host) level graph world post) :
    (measured program).Ensures (meaning host) level graph world fun result graph' world' =>
      post result.1 graph' world' ∧ result.2 = world'.document.changes.since world.document.changes := by
  refine seeing_then (ran.bind ?_)
  intro result graph' world' holds
  exact seeing_then (ensures_pure ⟨holds, rfl⟩)

theorem SameLines.tree_eq (lines : SameLines parts parts') (served : Served parts card)
    (displays : Displays parts' card) (attrs : parts'.attributes = parts.attributes) : parts'.tree = parts.tree := by
  simp only [Parts.tree, attrs, displays.title, served.title_eq, lines.heading_eq, lines.paragraph_eq, lines.items_eq,
    lines.tail_eq]

variable {client : Card} {earlier : List Card}

theorem ensures_handover (idle : Idle graph world fun _ => False)
    (closed : ∀ card ∈ server :: client :: earlier, ∀ tone ∈ card.tone, ';' ∉ tone.toList)
    (title : Legible server.title) (items : ∀ item ∈ server.items, Legible item) :
    (handover earlier server client).Ensures (meaning host) 3 graph world fun seen _ world' =>
      SameButComments world'.document seen.container seen.fresh ∧
      (server = client → (∀ tone ∈ client.tone, trimmed tone = tone) →
        (∃ card ∈ earlier, card.items ≠ [] ∨ client.items = []) → seen.changes = {} ∧
        seen.hydration = { claims := 5 + 2 * client.items.length, misses := 0 } ∧ seen.after = seen.before) := by
  refine (ensures_rehearsal idle fun card mem => closed card (by simp [mem])).bind ?_
  rintro _ _ _ ⟨idle, _, rehearsed⟩
  obtain ⟨_, reserved⟩ := idle.reserved
  refine (ensures_containerOf title items reserved).bind ?_
  rintro container _ world₂ ⟨rfl, frame, _, parts, served, housed, placed⟩
  refine seeing_then ?_
  refine (ensures_newCells client idle.rest).bind ?_
  rintro _ _ world₂ ⟨_, unread, holds, _, rest, rfl⟩
  have framed : world₂.frames = [] := by rw [frame, idle.frames_eq]
  refine (ensures_measured (ensures_hydrate placed housed served framed unread rest holds (closed server (by simp))
    (closed client (by simp)))).bind ?_
  rintro ⟨⟨_, _⟩, _⟩ _ world₄ ⟨⟨_, parts', _, _, taken⟩, changes_eq⟩
  refine seeing_then ?_
  have settled := taken.following.furnished.placed.idle taken.rest taken.frames_eq
  refine (ensures_freshContainer settled (closed client (by simp))).bind ?_
  rintro _ _ world₅ ⟨_, rendered⟩
  refine ensures_pure ⟨?_, ?_⟩
  · have still : Housed world₅.document container parts' :=
      taken.housed.frame rendered.housed.standing.large fun n mem => rendered.unchanged n (by
        rcases List.mem_cons.mp mem with rfl | own
        · exact .inr (.inl rfl)
        · exact .inl own)
    refine still.same rendered.housed taken.following.displays rendered.displays ?_
    rw [taken.attributes_eq, served.attributes_eq, rendered.attributes_eq]
    exact sameAttributes_dressed server client
  · rintro rfl tidy ⟨card, mem, some⟩
    have parsed : Parsed world₂ server := by
      obtain ⟨cardParsed, itemParsed⟩ := rehearsed card mem
      rw [frame]
      exact ⟨cardParsed, some.imp itemParsed id⟩
    obtain ⟨lines, same, counts⟩ := taken.matched parsed served.shown
    have attrs : parts'.attributes = parts.attributes := by
      rw [taken.attributes_eq, served.attributes_eq, dressedAttributes_server tidy]
    refine ⟨?_, counts, ?_⟩
    · refine changes_eq.trans ?_
      rw [same]
      simp [Changes.since]
    · show world₄.document.inner container = world₂.document.inner container
      rw [taken.housed.inner, housed.inner, lines.tree_eq served taken.following.displays attrs]

theorem idle_start : Idle ({} : CardGraph) { host := {} } fun _ => False :=
  ⟨⟨rfl, rfl, rfl, rfl, rfl⟩, rfl, fun _ => False, ⟨by simp, by simp⟩, by simp, by simp⟩

/-- The client's card over the markup that a server sent for another card, whatever the two are, shows what it shows
when it is rendered by itself. Over its own markup, once the templates are read, it makes, puts and removes no node and
leaves the markup as it was. -/
theorem taken_over_same_as_fresh (earlier : List Card) (server client : Card)
    (closed : ∀ card ∈ server :: client :: earlier, ∀ tone ∈ card.tone, ';' ∉ tone.toList)
    (title : Legible server.title) (items : ∀ item ∈ server.items, Legible item) :
    ∃ seen final, Live.run host (handover earlier server client) { outside := { host := {} } } = .ok seen final ∧
      SameButComments final.outside.document seen.container seen.fresh ∧
      (server = client → (∀ tone ∈ client.tone, trimmed tone = tone) →
        (∃ card ∈ earlier, card.items ≠ [] ∨ client.items = []) → seen.changes = {} ∧
        seen.hydration = { claims := 5 + 2 * client.items.length, misses := 0 } ∧ seen.after = seen.before) := by
  obtain ⟨seen, graph, world, history, ran, holds⟩ :=
    ensures_handover idle_start closed title items depth [] (by decide)
  exact ⟨seen, ⟨graph, world, history⟩, ran, holds⟩

/-- A card with a title to be escaped, over markup with another title and fewer items, and over its own. -/
theorem taken_over_same_as_fresh_notice : let notice : Card := ⟨"card wide", "x < y", -1, ["a", ""], true, some "red"⟩
    let older : Card := ⟨"active", "", 7, ["only"], false, none⟩
    (∃ seen final, Live.run host (handover [notice] older notice) { outside := { host := {} } } = .ok seen final ∧
      SameButComments final.outside.document seen.container seen.fresh) ∧
    ∃ seen final, Live.run host (handover [notice] notice notice) { outside := { host := {} } } = .ok seen final ∧
      seen.changes = {} ∧ seen.hydration = { claims := 9, misses := 0 } ∧ seen.after = seen.before := by
  intro notice older
  have closed : ∀ card ∈ [older, notice, notice], ∀ tone ∈ card.tone, ';' ∉ tone.toList := by simp [notice, older]
  have closed' : ∀ card ∈ [notice, notice, notice], ∀ tone ∈ card.tone, ';' ∉ tone.toList := by simp [notice]
  refine ⟨?_, ?_⟩
  · obtain ⟨seen, final, ran, same, _⟩ := taken_over_same_as_fresh [notice] older notice closed (by simp [Legible, older])
      (by simp [Legible, older, isAscii])
    exact ⟨seen, final, ran, same⟩
  · obtain ⟨seen, final, ran, _, unchanged⟩ := taken_over_same_as_fresh [notice] notice notice closed'
      (by simp [Legible, notice, isAscii]) (by simp [Legible, notice, isAscii])
    exact ⟨seen, final, ran, unchanged rfl (by simp [notice, trimmed]; decide) ⟨notice, by simp, .inl (by simp [notice])⟩⟩

end Handover

end LiveMarkup.Card
