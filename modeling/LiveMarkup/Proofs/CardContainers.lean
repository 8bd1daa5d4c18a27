import LiveMarkup.Proofs.CardBuilding

/-!
Cards in containers. A container is given a server's markup, or a card is rendered into it; either way a card comes to
stand alone in the container, and what was fixed before stays as it was.
-/

namespace LiveMarkup.Document
open Markup (Tree)

variable {η π : Type} {doc : Document η π} {parent other n : NodeId} {top node : Node η π}

structure Moved (doc next : Document η π) (other parent n : NodeId) (top node : Node η π) : Prop where
  parent_eq : next.node? parent = some { top with children := [n] }
  self_eq : next.node? n = some { node with parent := some parent }
  confined : Confined doc next [parent, n, other]

theorem moved_place (present : doc.node? parent = some top) (empty : top.children = []) (found : doc.node? n = some node)
    (above : node.parent = some other) (apart : parent ≠ n) (inner : n ≠ other) :
    Moved doc (doc.place parent n none) other parent n top node := by
  have rearranged := rearranged_place doc parent n none
  have stands : doc.parent? n = some other := (parent?_of_node? found).trans above
  have held : (doc.node? parent).isSome := by simp [present]
  have parents : ∀ m, m ≠ n → (doc.place parent n none).parent? m = doc.parent? m := by
    intro m differs
    rw [parent?_place (present_of_parent? stands), if_neg differs]
  have below : ∀ m, m ≠ parent → m ≠ other → (doc.place parent n none).children m = doc.children m := by
    intro m notParent notOther
    rw [children_place held, if_neg notParent, children_detach, stands]
    simp [notOther.symm]
  refine ⟨?_, ?_, Nat.le_of_eq rearranged.size_eq.symm, fun m _ elsewhere => ?_⟩
  · have children : (doc.place parent n none).children parent = [n] := by
      have bare : (doc.detach n).children parent = [] := by
        rw [children_detach, stands, children_of_node? present, empty]
        simp
      rw [children_place held, if_pos rfl, bare]
      rfl
    rw [rearranged.of_node? present, parents parent apart, parent?_of_node? present, children]
  · rw [rearranged.of_node? found, parent?_place (present_of_parent? stands), if_pos rfl, below n apart.symm inner,
      children_of_node? found]
  · obtain ⟨notParent, notNode, notOther⟩ : m ≠ parent ∧ m ≠ n ∧ m ≠ other := by simpa using elsewhere
    exact rearranged.node? (parents m notNode) (below m notParent notOther)

theorem shows_appended (doc : Document η π) (kind : Kind) (tree : Tree) :
    ∃ fragment read next root, (doc.create kind "").2.ofTrees [tree] = (fragment, read) ∧
      read.append doc.nodes.size fragment = next ∧ Extended doc next ∧
        next.node? doc.nodes.size = some { kind, children := [root] } ∧
        next.Shows (fun m => doc.nodes.size + 1 < m ∧ m < next.nodes.size) (some doc.nodes.size) tree root := by
  have made : (doc.create kind "").2.node? doc.nodes.size = some { kind } := (node?_create doc kind "" _).trans (if_pos rfl)
  have size : (doc.create kind "").2.nodes.size = doc.nodes.size + 1 := by simp [create]
  have older := extended_create doc kind ""
  obtain ⟨_, next, read, extended, _, fragment, shows⟩ := ofTrees_shows (doc.create kind "").2 [tree]
  rw [size] at read fragment shows
  obtain ⟨root, rest, rfl, first, none⟩ := shows
  obtain rfl : rest = [] := none
  have shown : next.Shows (fun m => doc.nodes.size + 1 < m ∧ m < next.nodes.size) (some (doc.nodes.size + 1)) tree root :=
    first.frame (fun _ _ => rfl) fun m h => h.1
  obtain ⟨_, _, _, _, _, found, _⟩ := shown.record
  obtain ⟨above, _⟩ := shown.inside
  have top : next.node? doc.nodes.size = some { kind } := (extended.node?_eq _ (size ▸ Nat.lt_succ_self _)).trans made
  have moved := moved_place top rfl found rfl (Nat.lt_of_succ_lt above).ne above.ne'
  have same : next.append doc.nodes.size (doc.nodes.size + 1) = next.place doc.nodes.size root none := by
    have inFragment : next.isFragment (doc.nodes.size + 1) = true := by simp [isFragment, kind_of_node? fragment]
    rw [append, insertBefore, inFragment, children_of_node? fragment]
    rfl
  have final := (rearranged_place next doc.nodes.size root none).size_eq
  refine ⟨_, next, _, root, read, same, ⟨?_, fun m small => ?_⟩, moved.parent_eq, ?_⟩
  · rw [final]
    exact older.size_le.trans (size ▸ extended.size_le)
  · have apart : m ∉ [doc.nodes.size, root, doc.nodes.size + 1] := by
      simp only [List.mem_cons, List.not_mem_nil, or_false]
      omega
    rw [moved.confined.others m (by omega) apart, extended.node?_eq m (size ▸ Nat.lt_succ_of_lt small), older.node?_eq m small]
  · rw [final]
    refine shown.reparent _ (by rw [moved.self_eq, found]; rfl) fun m mem differs => ?_
    refine moved.confined.others m mem.2 ?_
    simp only [List.mem_cons, List.not_mem_nil, or_false]
    rintro (rfl | rfl | rfl)
    · exact Nat.lt_asymm mem.1 (Nat.lt_succ_self _)
    · exact differs rfl
    · exact lt_irrefl _ mem.1

end LiveMarkup.Document

namespace LiveMarkup.Card
open Document Live Markup Reactive Text

variable {level : Nat} {graph : CardGraph} {world world' : CardWorld} {fixed : NodeId → Prop} {parts : Parts}
  {container : NodeId}

section Houses

variable {doc next : CardDocument}

structure Housed (doc : CardDocument) (container : NodeId) (parts : Parts) : Prop where
  standing : Standing doc parts
  container_eq : doc.node? container = some { kind := .element "main" false, children := [parts.root] }
  above_eq : parts.above = some container

variable (housed : Housed doc container parts)
include housed

theorem Housed.frame (large : 12 ≤ next.nodes.size) (same : ∀ n ∈ container :: parts.nodes, next.node? n = doc.node? n) :
    Housed next container parts :=
  ⟨housed.standing.frame large fun n mem => same n (List.mem_cons_of_mem container mem),
    (same container (by simp)).trans housed.container_eq, housed.above_eq⟩

theorem Housed.lists : doc.Lists container [parts.root] := by
  refine ⟨by simp [housed.container_eq], by simp [children_of_node? housed.container_eq], by simp, ?_⟩
  intro n mem
  rw [List.mem_singleton.mp mem, parent?_of_node? housed.standing.root_eq]
  exact housed.above_eq

theorem Housed.trees : doc.trees [container] = [.element "main" false [] [parts.tree]] := by
  obtain ⟨fuel, size⟩ := Nat.exists_eq_add_of_le housed.standing.large
  have below := housed.standing.treesUpTo (fuel + 8)
  rw [Document.trees, treesUpTo_element housed.container_eq rfl, size, show 12 + fuel = fuel + 8 + 4 by omega, below]

theorem Housed.inner : doc.inner container = parts.tree.render := by
  obtain ⟨fuel, size⟩ := Nat.exists_eq_add_of_le housed.standing.large
  have below := housed.standing.treesUpTo (fuel + 9)
  have plain : doc.holdsRawText container = false := by
    rw [holdsRawText, tag?_of_node? housed.container_eq]
    rfl
  rw [Document.inner, plain, Document.trees, children_of_node? housed.container_eq, size,
    show 12 + fuel + 1 = fuel + 9 + 4 by omega, below]
  simp [Tree.renderIn.renderAll, Tree.render]

end Houses

section Serving

variable {kept : NodeId → Prop}

structure Served (parts : Parts) (card : Card) : Prop where
  attributes_eq : parts.attributes = serverAttributes card
  title_eq : parts.headingAttributes = [("title", card.title)]
  properties_eq : parts.properties = []
  listeners_eq : parts.listeners = []
  shown : Matches parts card
  closed : parts.paragraph.tail ≠ []

def withContainer (container : NodeId) (fixed : NodeId → Prop) (m : NodeId) : Prop := m = container ∨ fixed m

theorem Reserved.withNew (reserved : Reserved world kept fixed) (extended : Extended world.document world'.document)
    (new : world.document.nodes.size < world'.document.nodes.size) (host : world'.host = world.host) :
    Reserved world' kept (withContainer world.document.nodes.size fixed) := by
  have older : Reserved world' kept fixed := reserved.step extended.confined (by simp) host
  refine ⟨older.toHosted, ?_, ?_⟩
  · rintro m (rfl | here)
    · exact new
    · exact older.fixed_lt m here
  · rintro m (rfl | here) kept
    · exact lt_irrefl _ (reserved.small _ kept)
    · exact reserved.apart m here kept

theorem ensures_containerOf {card : Card} (title : Legible card.title) (items : ∀ item ∈ card.items, Legible item)
    (reserved : Reserved world kept fixed) :
    (containerOf card.markup).Ensures (Procedure.meaning host) level graph world fun container graph' world' =>
      graph' = graph ∧ world' = { world with document := world'.document } ∧
        (∀ m, fixed m → world'.document.node? m = world.document.node? m) ∧ ∃ parts, Served parts card ∧
        Housed world'.document container parts ∧ Placed world' parts [] (withContainer container fixed) := by
  obtain ⟨fragment, read, _, root, made, rfl, extended, found, shows⟩ :=
    shows_appended world.document (.element "main" false) (serverTree card)
  have large : 12 ≤ (read.append world.document.nodes.size fragment).nodes.size := by
    have enough : root + 10 < (read.append world.document.nodes.size fragment).nodes.size :=
      (add_lt_of_shows shows fun m mem => mem.2).2 rfl
    have low : 2 ≤ root := (Nat.le_add_left 2 _).trans shows.inside.1
    exact (Nat.add_le_add_right low 10).trans enough.le
  obtain ⟨parts, standing, rfl, above, attrs, properties, headings, listeners, heading, count, lines, within, _,
    ended⟩ := standing_of_shows large shows
  have closed : parts.paragraph.tail ≠ [] := by
    obtain ⟨_, tail⟩ := ended rfl
    simp [tail]
  have new : ∀ n ∈ parts.nodes, world.document.nodes.size < n := fun n mem => Nat.lt_of_succ_lt (within n mem).1
  let filled : CardWorld := { world with document := read.append world.document.nodes.size fragment }
  have held : Reserved filled kept (withContainer world.document.nodes.size fixed) :=
    reserved.withNew extended (lt_size_of_node? found) rfl
  refine Program.changing_then ?_
  refine (ensures_readFragment (read_markup title items)).bind ?_
  rintro taken _ between ⟨rfl, taken_eq, between_eq⟩
  obtain rfl : taken = fragment := taken_eq.trans (congrArg Prod.fst made)
  obtain rfl : between = { world with document := read } :=
    between_eq.trans (congrArg (fun document => { world with document }) (congrArg Prod.snd made))
  refine Program.altering_then (Program.ensures_pure ?_)
  refine ⟨rfl, rfl, fun m here => extended.node?_eq m (reserved.fixed_lt m here), parts,
    ⟨attrs, headings, properties, listeners, ⟨heading, count, lines⟩, closed⟩, ⟨standing, found, above⟩, standing,
    ⟨by simp, by simp⟩, kept, held, fun n mem => ?_⟩
  have here := new n (by simpa using mem)
  refine ⟨fun old => Nat.lt_asymm here (reserved.small n old), ?_⟩
  rintro (rfl | old)
  · exact lt_irrefl _ here
  · exact Nat.lt_asymm here (reserved.fixed_lt n old)

end Serving

section Rendering

variable {scope : OwnerId} {values : CellId → Option Datum} {cells : Cells} {card : Card} {kept : NodeId → Prop}

/-- A card follows its cells: its nodes show what they hold, and its reactions wait for them to change. -/
structure Following (graph : CardGraph) (world : CardWorld) (setup : Setup) (parts : Parts) (card : Card)
    (fixed : NodeId → Prop) : Prop where
  waiting : Waiting graph setup parts card
  furnished : Furnished world setup parts fixed
  displays : Displays parts card

theorem Waiting.alive {setup : Setup} (waiting : Waiting graph setup parts card) : graph.ownerAlive setup.scope = true := by
  obtain ⟨_, _, wired, _, _⟩ := waiting
  simp [Graph.ownerAlive, Table.contains, wired.root_eq]

theorem ensures_build_copied (reserved : Reserved world kept fixed) (idle : world.frames = [])
    (wired : Wired graph scope [] values []) (rest : AtRest graph (some scope)) (holds : Holds values cells card)
    (closed : ∀ tone ∈ card.tone, ';' ∉ tone.toList) :
    (build cells).Ensures (Procedure.meaning host) 3 graph world fun view graph' world' =>
      ∃ setup parts, setup.cells = cells ∧ setup.scope = scope ∧ view = .node parts.root ∧ parts.above = none ∧
        parts.attributes = dressedAttributes card [] ∧ Following graph' world' setup parts card fixed ∧
        AtRest graph' (some scope) ∧ Beside world world' [] [] ∧ (world'.host.root .card).isSome ∧
        (card.items ≠ [] → (world'.host.root .item).isSome) ∧
        ∀ m, fixed m → world'.document.node? m = world.document.node? m := by
  refine (ensures_template .card reserved.toHosted).bind ?_
  rintro template _ ready ⟨rfl, at_hand, near, _, kept', prepared⟩
  have held := reserved.prepare prepared
  have framed : ready.frames = [] := near.frames_eq.trans idle
  have source := held.shows .card template at_hand
  refine (ensures_instantiate_copy source held.small (by simp [framed])).bind ?_
  rintro copy _ copied ⟨rfl, extended, shows, same⟩
  have large : 12 ≤ copied.document.nodes.size := by
    have first : template + 7 < ready.document.nodes.size := (add_lt_of_shows source held.small).1
    have second : copy + 7 < copied.document.nodes.size := (add_lt_of_shows shows fun m mem => mem.2).1
    have low : ready.document.nodes.size ≤ copy := shows.inside.1
    have eight : 8 ≤ copy := (Nat.le_trans (Nat.le_add_left 8 template) first).trans low
    exact (Nat.le_trans (by decide) (Nat.add_le_add_right eight 7)).trans second.le
  obtain ⟨parts, standing, rfl, above, attrs, properties, headings, listeners, heading, count, lines, within, bare, _⟩ :=
    standing_of_shows large shows
  obtain ⟨headingTail, countTail, tail⟩ := bare rfl
  have stepped : Reserved copied kept' fixed := held.step extended.confined (by simp) (by rw [same])
  have placed : Placed copied parts [] fixed := by
    refine ⟨standing, ⟨by simp, by simp⟩, kept', stepped, fun n mem => ?_⟩
    have new : ready.document.nodes.size ≤ n := (within n (by simpa using mem)).1
    exact ⟨fun old => not_lt.mpr new (held.small n old), fun old => not_lt.mpr new (held.fixed_lt n old)⟩
  have furnishable : Furnishable copied parts := by
    refine ⟨properties, listeners, .inl (by rw [attrs]; rfl), fun title => by rw [headings]; rfl, fun _ => ?_,
      fun busy => ?_⟩
    · exact ⟨⟨standing.heading.stands.text_eq_none.mpr heading, headingTail⟩,
        ⟨standing.paragraph.stands.text_eq_none.mpr count, countTail⟩, by simpa using lines, tail⟩
    · rw [World.isHydrating, same, framed] at busy
      cases busy
  have between : Beside ready copied [] [] := by
    rw [same]
    exact { Beside.refl ready [] [] with }
  refine (ensures_furnish placed furnishable wired rest holds closed).bind ?_
  rintro _ _ _ ⟨setup, parts', cells_eq, scope_eq, waiting, resting, furnished, displays, dressed, root, up, beside,
    parsed, still, _⟩
  refine Program.ensures_pure ⟨setup, parts', cells_eq, scope_eq, by rw [root], up.trans above, ?_,
    ⟨waiting, furnished, displays⟩, resting, (near.trans between).trans beside, ?_, parsed, fun m here => ?_⟩
  · rw [dressed, attrs]
  · exact Option.isSome_iff_exists.mpr ⟨template, (between.trans beside).templates .card template at_hand⟩
  · rw [still m here, extended.node?_eq m (held.fixed_lt m here), prepared.extended.node?_eq m (reserved.fixed_lt m here)]

structure Idle (graph : CardGraph) (world : CardWorld) (fixed : NodeId → Prop) : Prop where
  rest : AtRest graph none
  frames_eq : world.frames = []
  reserved : ∃ kept, Reserved world kept fixed

theorem Idle.mono {fewer : NodeId → Prop} (idle : Idle graph world fixed) (fewer_fixed : ∀ m, fewer m → fixed m) :
    Idle graph world fewer := by
  obtain ⟨kept, reserved⟩ := idle.reserved
  exact ⟨idle.rest, idle.frames_eq, kept, reserved.toHosted, fun m here => reserved.fixed_lt m (fewer_fixed m here),
    fun m here => reserved.apart m (fewer_fixed m here)⟩

def withCard (parts : Parts) (fixed : NodeId → Prop) (m : NodeId) : Prop := m ∈ parts.nodes ∨ fixed m

theorem Placed.idle (placed : Placed world parts [] fixed) (rest : AtRest graph none) (framed : world.frames = []) :
    Idle graph world (withCard parts fixed) := by
  obtain ⟨kept, reserved, apart⟩ := placed.kept
  have own : ∀ m ∈ parts.nodes, ¬ kept m := fun m mem => (apart m (by simp [mem])).1
  refine ⟨rest, framed, kept, reserved.toHosted, ?_, ?_⟩
  · rintro m (mem | here)
    · exact placed.standing.lt_size m mem
    · exact reserved.fixed_lt m here
  · rintro m (mem | here)
    · exact own m mem
    · exact reserved.apart m here

/-- A card that is rendered by itself in a container, apart from all that was there. -/
structure Rendered (graph' : CardGraph) (world world' : CardWorld) (fixed : NodeId → Prop) (card : Card)
    (container : NodeId) (parts : Parts) : Prop where
  housed : Housed world'.document container parts
  displays : Displays parts card
  attributes_eq : parts.attributes = dressedAttributes card []
  idle : Idle graph' world' (withCard parts (withContainer container fixed))
  beside : Beside world world' [] []
  card_parsed : (world'.host.root .card).isSome
  item_parsed : card.items ≠ [] → (world'.host.root .item).isSome
  unchanged : ∀ m, fixed m → world'.document.node? m = world.document.node? m

theorem isFragment_root {doc : CardDocument} (standing : Standing doc parts) : doc.isFragment parts.root = false := by
  simp [isFragment, kind_of_node? standing.root_eq, Parts.rootRecord]

section

variable (placed : Placed world parts [] (withContainer container fixed)) (away : ¬ fixed container)
  (empty : world.document.node? container = some { kind := .element "main" false })
include placed away empty

theorem Placed.enter (host : world'.host = world.host)
    (refilled : Refilled world.document world'.document container [] [] [parts.root] []) :
    Placed world' { parts with above := some container } [] (withContainer container fixed) ∧
      Housed world'.document container { parts with above := some container } ∧
      ∀ m, fixed m → world'.document.node? m = world.document.node? m := by
  obtain ⟨kept, reserved, apart⟩ := placed.kept
  have strange : container ≠ parts.root := fun same => (apart parts.root (by simp [Parts.nodes])).2 (.inl same.symm)
  have entered := refilled.node?_new placed.standing.root_eq (by simp) strange.symm
  have filled := refilled.node?_parent empty (by simp) (by simpa using strange)
  have standing : Standing world'.document { parts with above := some container } := by
    refine placed.standing.withRoot refilled.confined ?_ entered
    simpa using .inr (tag?_of_node? empty)
  refine ⟨⟨standing, ⟨by simp, by simp⟩, kept, reserved.step refilled.confined ?_ host, apart⟩, ⟨standing, filled, rfl⟩,
    fun m here => refilled.node?_other ?_ (by simp) ?_⟩
  · simpa using ⟨reserved.apart container (.inl rfl), (apart parts.root (by simp [Parts.nodes])).1⟩
  · rintro rfl
    exact away here
  · intro root
    exact (apart m (by simp [Parts.nodes, List.mem_singleton.mp root])).2 (.inr here)

theorem ensures_insert_root (above : parts.above = none) (framed : world.frames = []) (under : graph.owner = some scope)
    (alive : graph.ownerAlive scope = true) :
    (insert container (.node parts.root) none : CardProgram Unit).Ensures (Procedure.meaning host) level graph world
      fun _ graph' world' => graph' = graph ∧ world'.host = world.host ∧ Beside world world' [] [] ∧
        Placed world' { parts with above := some container } [] (withContainer container fixed) ∧
        Housed world'.document container { parts with above := some container } ∧
        ∀ m, fixed m → world'.document.node? m = world.document.node? m := by
  have solid := isFragment_root placed.standing
  refine (ensures_insert_fixed (fixed_node solid) under alive (by rw [World.isHydrating, framed]) container).mono ?_
  rintro _ _ final ⟨rfl, shown⟩
  let region : Region := { parent := container, owner := some scope }
  have lists : world.document.Lists region.parent ([] ++ (region.current ++ [])) :=
    ⟨by simp [region, empty], by simp [region, children_of_node? empty], by simp [region], by simp [region]⟩
  have fitting : Fitting world.document region.parent [] [parts.root] [] :=
    ⟨by simp, by simpa using solid, by simp, by simpa using .inl ((parent?_of_node? placed.standing.root_eq).trans above)⟩
  obtain ⟨next, updated, refilled⟩ := refilled_update lists rfl rfl fitting
  have document : final.document = next := by
    rw [shown]
    exact congrArg Prod.snd updated
  have host_eq : final.host = world.host := by rw [shown]; rfl
  have near : Beside world final [] [] := by
    rw [shown]
    exact (beside_mounted world _ _).trans_new (beside_updated _ _ _ _)
  rw [← document] at refilled
  exact ⟨rfl, host_eq, near, placed.enter away empty host_eq refilled⟩

end

theorem ensures_render (reserved : Reserved world kept (withContainer container fixed)) (away : ¬ fixed container)
    (empty : world.document.node? container = some { kind := .element "main" false }) (framed : world.frames = [])
    (unread : Unread graph values) (rest : AtRest graph none) (holds : Holds values cells card)
    (closed : ∀ tone ∈ card.tone, ';' ∉ tone.toList) :
    (render (build cells) container).Ensures (Procedure.meaning host) 3 graph world fun _ graph' world' =>
      ∃ parts, Rendered graph' world world' fixed card container parts := by
  have under : ∀ graph', Wired graph' graph.nextId [] values [] → AtRest graph' (some graph.nextId) →
      (build cells >>= fun view => insert container view none).Ensures (Procedure.meaning host) 3 graph' world
        fun _ graph'' world' => AtRest graph'' (some graph.nextId) ∧
          ∃ parts, Rendered { graph'' with owner := none, observer := none } world world' fixed card container parts := by
    intro graph' wired resting
    refine (ensures_build_copied reserved framed wired resting holds closed).bind ?_
    rintro _ graph'' built ⟨_, parts, rfl, scope_eq, rfl, above, attrs, following, resting, beside, _,
      itemParsed, still⟩
    have alive : graph''.ownerAlive graph.nextId = true := scope_eq ▸ following.waiting.alive
    have framed' : built.frames = [] := beside.frames_eq.trans framed
    refine (ensures_insert_root following.furnished.placed away ((still container (.inl rfl)).trans empty) above framed'
      resting.owner_eq alive).mono ?_
    rintro _ graph'' _ ⟨rfl, host_eq, near, entered, housed, unchanged⟩
    have settled : AtRest { graph'' with owner := none, observer := none } none :=
      { resting with owner_eq := rfl, observer_eq := rfl }
    refine ⟨resting, { parts with above := some container }, housed, { following.displays with }, attrs,
      entered.idle settled (near.frames_eq.trans framed'), beside.trans near, by rwa [host_eq], by rwa [host_eq],
      fun m here => ?_⟩
    rw [unchanged m here, still m (.inr here)]
  refine (ensures_underRoot (fun _ graph' world' => ∃ parts, Rendered graph' world world' fixed card container parts)
    unread rest under).bind ?_
  rintro _ _ _ ⟨_, _, done⟩
  exact Program.ensures_pure done

theorem ensures_freshContainer (idle : Idle graph world fixed) (closed : ∀ tone ∈ card.tone, ';' ∉ tone.toList) :
    (freshContainer card).Ensures (Procedure.meaning host) 3 graph world fun container graph' world' =>
      ∃ parts, Rendered graph' world world' fixed card container parts := by
  obtain ⟨_, reserved⟩ := idle.reserved
  let opened : CardWorld := { world with document := (world.document.createElement "main").2 }
  have extended : Extended world.document opened.document := extended_create world.document _ ""
  have made : opened.document.node? world.document.nodes.size = some { kind := .element "main" false } :=
    (node?_create world.document _ "" _).trans (if_pos rfl)
  have held := reserved.withNew extended (lt_size_of_node? made) rfl
  refine Program.changing_then ?_
  refine (ensures_newCells card idle.rest).bind ?_
  rintro _ _ _ ⟨_, unread, holds, _, rest, rfl⟩
  have away : ¬ fixed world.document.nodes.size := fun here => lt_irrefl _ (reserved.fixed_lt _ here)
  refine (ensures_render held away made idle.frames_eq unread rest holds closed).bind ?_
  rintro _ _ _ ⟨parts, rendered⟩
  refine Program.ensures_pure ⟨parts, { rendered with beside := ?_, unchanged := fun m here => ?_ }⟩
  · have near : Beside world opened [] [] := { Beside.refl world [] [] with }
    exact near.trans rendered.beside
  · rw [rendered.unchanged m here, extended.node?_eq m (reserved.fixed_lt m here)]

end Rendering

end LiveMarkup.Card
