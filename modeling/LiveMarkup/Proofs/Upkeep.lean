import LiveMarkup.Proofs.CardWrites

/-!
Cards over a long time. A card that took over a server's markup keeps showing what it would show if it were rendered by
itself, through all that is written and clicked, until it is disposed; from then on nothing changes its nodes any more.
-/

namespace LiveMarkup.Markup.Tree
open Text

/-- Values of an attribute are the same; classes are when they have the same words. -/
def alikeValues (name : String) (a b : String) : Bool :=
  if name = "class" then (wordsOf a).all ((wordsOf b).contains ·) && (wordsOf b).all ((wordsOf a).contains ·) else a == b

/-- The same attributes in any order, and in the class attribute the same words in any order. -/
def alikeAttributes (a b : Attributes) : Bool :=
  a.length == b.length && a.all fun entry => b.any fun other => entry.1 == other.1 && alikeValues entry.1 entry.2 other.2

def alike : Tree → Tree → Bool
  | .text a, .text b => a == b
  | .comment a, .comment b => a == b
  | .element tag svg attributes children, .element tag' svg' attributes' children' =>
    tag == tag' && svg == svg' && alikeAttributes attributes attributes' && alikeAll children children'
  | _, _ => false
where
  alikeAll : List Tree → List Tree → Bool
    | [], [] => true
    | a :: as, b :: bs => alike a b && alikeAll as bs
    | _, _ => false

theorem alikeValues_self (name value : String) : alikeValues name value value = true := by
  unfold alikeValues
  split <;> simp

theorem alikeAttributes_self (attrs : Attributes) : alikeAttributes attrs attrs = true := by
  simp only [alikeAttributes, beq_self_eq_true, Bool.true_and, List.all_eq_true, List.any_eq_true]
  exact fun entry mem => ⟨entry, mem, by simp [alikeValues_self]⟩

mutual

theorem alike_self (tree : Tree) : alike tree tree = true := by
  match tree with
  | .text _ | .comment _ => simp [alike]
  | .element _ _ _ children => simp [alike, alikeAttributes_self, alikeAll_self children]

theorem alikeAll_self (trees : List Tree) : alike.alikeAll trees trees = true := by
  match trees with
  | [] => rfl
  | tree :: trees => simp [alike.alikeAll, alike_self tree, alikeAll_self trees]

end

end LiveMarkup.Markup.Tree

namespace LiveMarkup.Card
open Document Live Markup Reactive Text List Procedure Program

variable {level : Nat} {graph : CardGraph} {world world' : CardWorld} {fixed : NodeId → Prop} {parts parts' : Parts}
  {container : NodeId} {setup : Setup} {card : Card}

section Looks

variable {a b : Attributes}

theorem mem_keys_iff {entries : Attributes} (once : (entries.map Prod.fst).Nodup) {name : String} :
    name ∈ entries.map Prod.fst ↔ (valueUnder? entries name).isSome := by
  rw [Option.isSome_iff_exists]
  constructor
  · intro mem
    obtain ⟨⟨_, value⟩, member, rfl⟩ := mem_map.mp mem
    exact ⟨value, (mem_iff_valueUnder? once).mp member⟩
  · rintro ⟨_, found⟩
    exact mem_map.mpr ⟨_, (mem_iff_valueUnder? once).mpr found, rfl⟩

theorem alikeAttributes_of_values (onceA : (a.map Prod.fst).Nodup) (onceB : (b.map Prod.fst).Nodup)
    (present : ∀ name, (valueUnder? a name).isSome = (valueUnder? b name).isSome)
    (same : ∀ name one two, valueUnder? a name = some one → valueUnder? b name = some two →
      Tree.alikeValues name one two = true) : Tree.alikeAttributes a b = true := by
  have names : (a.map Prod.fst).Perm (b.map Prod.fst) := by
    refine (perm_ext_iff_of_nodup onceA onceB).mpr fun name => ?_
    rw [mem_keys_iff onceA, mem_keys_iff onceB, present]
  have length : a.length = b.length := by simpa using names.length_eq
  simp only [Tree.alikeAttributes, length, beq_self_eq_true, Bool.true_and, all_eq_true, any_eq_true]
  rintro ⟨name, one⟩ mem
  have found := (mem_iff_valueUnder? onceA).mp mem
  obtain ⟨two, there⟩ : ∃ two, valueUnder? b name = some two := by
    rw [← Option.isSome_iff_exists, ← present, found]
    rfl
  exact ⟨(name, two), (mem_iff_valueUnder? onceB).mpr there, by simpa using same name one two found there⟩

theorem alikeValues_class {names others : List String} (words : ∀ name ∈ names, IsWord name)
    (words' : ∀ name ∈ others, IsWord name) (same : ∀ word, word ∈ names ↔ word ∈ others) :
    Tree.alikeValues "class" (" ".intercalate names) (" ".intercalate others) = true := by
  simp only [Tree.alikeValues, if_true, wordsOf_intercalate words, wordsOf_intercalate words', Bool.and_eq_true,
    all_eq_true, contains_iff_mem]
  exact ⟨fun word => (same word).mp, fun word => (same word).mpr⟩

theorem Dressed.alike (one : Dressed a card) (two : Dressed b card) : Tree.alikeAttributes a b = true := by
  obtain ⟨names, foundA, wordsA, sameA⟩ := one.classes
  obtain ⟨others, foundB, wordsB, sameB⟩ := two.classes
  have same : ∀ word, word ∈ names ↔ word ∈ others := fun word => (sameA word).trans (sameB word).symm
  have empty : names = [] ↔ others = [] := by simp only [eq_nil_iff_forall_not_mem, same]
  refine alikeAttributes_of_values one.once two.once (fun name => ?_) fun name valueA valueB hereA hereB => ?_
  · by_cases isClass : name = "class"
    · subst isClass
      rw [foundA, foundB, classText, classText]
      by_cases none : names = [] <;> simp [none, ← empty]
    · by_cases isStyle : name = "style"
      · rw [isStyle, one.style, two.style]
      · rw [one.others name isClass isStyle, two.others name isClass isStyle]
  · by_cases isClass : name = "class"
    · subst isClass
      rw [foundA, classText] at hereA
      rw [foundB, classText] at hereB
      by_cases none : names = []
      · simp [none] at hereA
      · simp only [none, ← empty, if_false, Option.some.injEq] at hereA hereB
        rw [← hereA, ← hereB]
        exact alikeValues_class wordsA wordsB same
    · have equal : valueA = valueB := by
        by_cases isStyle : name = "style"
        · rw [isStyle, one.style] at hereA
          rw [isStyle, two.style, hereA] at hereB
          exact Option.some.inj hereB
        · rw [one.others name isClass isStyle] at hereA
          cases hereA
      rw [equal]
      exact Tree.alikeValues_self name valueB

/-- Trees show the same, but for comments and the order of attributes and classes. -/
def Alike (one two : List Tree) : Prop := Tree.alike.alikeAll (Tree.uncommentedAll one) (Tree.uncommentedAll two) = true

def Depicts (trees : List Tree) (card : Card) : Prop :=
  ∃ doc container parts, Housed doc container parts ∧ Displays parts card ∧ Dressed parts.attributes card ∧
    doc.trees [container] = trees

theorem Depicts.alike {one two : List Tree} (first : Depicts one card) (second : Depicts two card) : Alike one two := by
  obtain ⟨_, _, _, here, displays, dressed, rfl⟩ := first
  obtain ⟨_, _, _, there, displays', dressed', rfl⟩ := second
  rw [Alike, here.uncommented_trees displays, there.uncommented_trees displays']
  simp [Tree.alike.alikeAll, Tree.alike, Tree.alikeAttributes_self, Tree.alikeAll_self, dressed.alike dressed']

theorem Presents.depicts (presents : Presents world fixed container setup parts card) :
    Depicts (world.document.trees [container]) card :=
  ⟨_, container, parts, presents.housed, presents.displays, presents.dressed, rfl⟩

theorem Rendered.depicts (rendered : Rendered graph world world' fixed card container parts)
    (closed : ∀ tone ∈ card.tone, ';' ∉ tone.toList) : Depicts (world'.document.trees [container]) card := by
  refine ⟨_, container, parts, rendered.housed, rendered.displays, ?_, rfl⟩
  rw [rendered.attributes_eq]
  exact dressed_dressedAttributes closed (by simp) fun _ _ _ => rfl

end Looks

section Lifetimes

/-- Lets things happen to a card that was taken over, and looks at its container before the first and after each. -/
def watched (taken : Takeover) : List Action → CardProgram (List (List Tree))
  | [] => do return [← seeDocument (·.trees [taken.container])]
  | action :: rest => do
    let now ← seeDocument (·.trees [taken.container])
    act taken.cells taken.container taken.scope action
    return now :: (← watched taken rest)

/-- Renders the client's card over the server's markup and lets things happen to it. -/
def upkeep (server client : Card) (actions : List Action) : CardProgram (Takeover × List (List Tree)) := do
  let taken ← takeOver server.markup client
  return (taken, ← watched taken actions)

variable {taken : Takeover} {server : Card} {actions : List Action}

theorem ensures_takeOver (idle : Idle graph world fixed) (serverClosed : ∀ tone ∈ server.tone, ';' ∉ tone.toList)
    (closed : ∀ tone ∈ card.tone, ';' ∉ tone.toList) (title : Legible server.title)
    (items : ∀ item ∈ server.items, Legible item) :
    (takeOver server.markup card).Ensures (meaning host) 3 graph world fun taken graph' world' =>
      ∃ setup parts, taken.cells = setup.cells ∧ taken.scope = setup.scope ∧
        Current graph' world' fixed taken.container setup parts card := by
  obtain ⟨_, reserved⟩ := idle.reserved
  refine (ensures_containerOf title items reserved).bind ?_
  rintro _ _ world₁ ⟨rfl, frame, _, _, served, housed, placed⟩
  refine (ensures_newCells card idle.rest).bind ?_
  rintro _ _ world₁ ⟨_, unread, holds, once, rest, rfl⟩
  have framed : world₁.frames = [] := by rw [frame, idle.frames_eq]
  refine (ensures_measured (ensures_hydrate placed housed served framed unread rest holds serverClosed closed)).bind ?_
  rintro ⟨⟨_, _⟩, _⟩ _ _ ⟨⟨setup, parts', rfl, scope_eq, took⟩, _⟩
  have dressed : Dressed parts'.attributes card := by
    rw [took.attributes_eq, served.attributes_eq]
    refine dressed_dressedAttributes closed (ordinaryNames_server server).2 fun name notClass notStyle => ?_
    rw [valueUnder?_server, if_neg notClass, if_neg notStyle]
  exact ensures_pure ⟨setup, parts', rfl, scope_eq.symm, took.following.waiting, took.rest, once,
    took.following.furnished, took.following.displays, dressed, took.housed.container_eq, took.housed.above_eq⟩

theorem Current.ensures_watched (current : Current graph world fixed taken.container setup parts card)
    (cells : taken.cells = setup.cells) (scope : taken.scope = setup.scope)
    (going : ∀ action ∈ actions, action ≠ .dispose)
    (bounded : ∀ next ∈ actions.scanl after card, -2 ^ 31 ≤ next.count ∧ next.count < 2 ^ 31)
    (closed : ∀ next ∈ actions.scanl after card, ∀ tone ∈ next.tone, ';' ∉ tone.toList) :
    (watched taken actions).Ensures (meaning host) 7 graph world fun seen graph' world' =>
      Forall₂ Depicts seen (actions.scanl after card) ∧
        ∃ parts' final, Current graph' world' fixed taken.container setup parts' final := by
  induction actions generalizing graph world parts card with
  | nil => exact seeing_then (ensures_pure ⟨by simp [current.presents.depicts], parts, card, current⟩)
  | cons action actions ih =>
    rw [scanl_cons] at bounded closed ⊢
    have next : card.after action ∈ card :: actions.scanl after (card.after action) :=
      mem_cons_of_mem card (by cases actions <;> simp)
    refine seeing_then ?_
    rw [cells, scope]
    refine (current.ensures_act (going action (by simp)) (bounded _ next).1 (bounded _ next).2 (closed _ next)).bind ?_
    rintro _ _ _ ⟨_, _, current'⟩
    refine (ih current' (fun other mem => going other (by simp [mem]))
      (fun other mem => bounded other (by simp [mem])) fun other mem => closed other (by simp [mem])).bind ?_
    rintro _ _ _ ⟨depicted, ended⟩
    exact ensures_pure ⟨.cons current.presents.depicts depicted, ended⟩

end Lifetimes

section Disposal

/-- A card that was disposed: its cells hold their values, and nobody reads them or listens any more. -/
structure Finished (graph : CardGraph) (world : CardWorld) (container : NodeId) (cells : Cells) (scope : OwnerId) : Prop where
  ending : ∃ values, Ending graph scope none values [] ∧ ∀ cell ∈ cells.all, (values cell).isSome
  gone : graph.owners.get? scope = none
  quiet : ∃ button, firstButton? world.document container = some button ∧
    ∀ m ∈ button :: world.document.ancestors button, Silent world.document "click" m

variable {cells : Cells} {scope : OwnerId}

theorem Current.ensures_dispose (current : Current graph world fixed container setup parts card) :
    (perform (.dispose setup.scope) : CardProgram Unit).Ensures (meaning host) 7 graph world
      fun _ graph' world' => Finished graph' world' container setup.cells setup.scope ∧
        world'.document.trees [container] = world.document.trees [container] := by
  obtain ⟨values, _, wired, holds, _⟩ := current.waiting
  have housed := current.presents.housed
  let silent : CardWorld := { world with document := (world.document.removeListener parts.button setup.listener).2 }
  have rebound : Rebound world silent { parts with listeners := [] } (withContainer container fixed) := by
    refine current.presents.furnished.placed.edit_button ?_ rfl
    have edited := edited_modifyNode housed.standing.button_eq fun node =>
      { node with listeners := node.listeners.filter (·.id != setup.listener) }
    simpa [removeListener, Parts.buttonRecord, current.presents.furnished.listeners] using edited
  have left : Housed silent.document container { parts with listeners := [] } := by
    refine ⟨rebound.placed.standing, ?_, housed.above_eq⟩
    rw [rebound.unchanged container (.inl rfl)]
    exact housed.container_eq
  have cleanup : ∀ graph, (meaning host (.unlisten parts.button setup.listener)).Ensures (meaning host) 6
      graph world fun _ graph' world' => graph' = graph ∧ world' = silent :=
    fun graph => changing_then (ensures_pure ⟨rfl, rfl⟩)
  refine (Reactive.ensures_dispose wired current.rest cleanup).mono ?_
  rintro _ _ _ ⟨ending, gone, rfl⟩
  refine ⟨⟨⟨values, ending, ?_⟩, gone, parts.button, left.firstButton?_eq, ?_⟩, ?_⟩
  · simp [Cells.all, holds.kind, holds.active, holds.tone, holds.title, holds.count, holds.items]
  · rw [left.ancestors_button]
    intro m mem
    rcases mem_cons.mp mem with rfl | above
    · exact silent_of_node? left.standing.button_eq rfl "click"
    · exact left.quiet "click" m above
  · rw [left.trees, housed.trees]
    rfl

variable (finished : Finished graph world container cells scope)
include finished

theorem Finished.ensures_write {cell : CellId} {value : Datum} (mem : cell ∈ cells.all) :
    (perform (.write cell value) : CardProgram Unit).Ensures (meaning host) 7 graph world
      fun _ graph' world' => Finished graph' world' container cells scope ∧ world'.document = world.document := by
  obtain ⟨_, ending, held⟩ := finished.ending
  obtain ⟨_, here⟩ := Option.isSome_iff_exists.mp (held cell mem)
  refine (ensures_write_quiet ending here finished.gone).mono ?_
  rintro _ _ _ ⟨ending, gone, rfl⟩
  refine ⟨⟨⟨_, ending, fun other there => ?_⟩, gone, finished.quiet⟩, rfl⟩
  by_cases same : other = cell
  · simp [same]
  · simpa [same] using held other there

theorem Finished.ensures_click : (act cells container scope .click).Ensures (meaning host) 7 graph world
      fun _ graph' world' => Finished graph' world' container cells scope ∧ world'.document = world.document := by
  obtain ⟨button, found, quiet⟩ := finished.quiet
  refine click_then found fun event events ringing => ?_
  refine ensures_dispatch _ ringing (fun m above => quiet m (by simp [above])) fun events => ?_
  have own : world.document.handlers button "click" true ++ world.document.handlers button "click" false = [] := by
    simp [quiet button (by simp) true, quiet button (by simp) false]
  rw [own]
  exact ensures_pure ⟨fun m above => quiet m (by simp [above]), fun events =>
    ⟨⟨finished.ending, finished.gone, button, found, quiet⟩, rfl⟩⟩

theorem Finished.ensures_act (action : Action) : (act cells container scope action).Ensures (meaning host) 7 graph world
      fun _ graph' world' => Finished graph' world' container cells scope ∧ world'.document = world.document := by
  cases action with
  | click => exact finished.ensures_click
  | dispose =>
    obtain ⟨values, ending, held⟩ := finished.ending
    refine (ensures_dispose_gone ending finished.gone).mono ?_
    rintro _ _ _ ⟨ending, gone, rfl⟩
    exact ⟨⟨⟨values, ending, held⟩, gone, finished.quiet⟩, rfl⟩
  | kind | title | active | tone | count | items => exact finished.ensures_write (by simp [Cells.all])

theorem Finished.ensures_later (later : List Action) :
    (later.forM (act cells container scope)).Ensures (meaning host) 7 graph world
      fun _ _ world' => world'.document = world.document := by
  induction later generalizing graph world with
  | nil => exact ensures_pure rfl
  | cons action _ ih =>
    refine (finished.ensures_act action).bind ?_
    rintro _ _ _ ⟨finished', same⟩
    refine (ih finished').mono fun _ _ world'' still => ?_
    rw [still, same]

end Disposal

theorem rendered_alone (card : Card) (closed : ∀ tone ∈ card.tone, ';' ∉ tone.toList) :
    ∃ fresh final, Live.run host (freshContainer card) { outside := { host := {} } } = .ok fresh final ∧
      Depicts (final.outside.document.trees [fresh]) card := by
  obtain ⟨fresh, graph, world, history, ran, _, rendered⟩ :=
    ensures_freshContainer idle_start closed depth [] (by decide)
  exact ⟨fresh, ⟨graph, world, history⟩, ran, rendered.depicts closed⟩

/-- A card over a server's markup shows at every time what it shows when it is rendered by itself, whatever was written
and clicked before. Once it is disposed nothing that happens to it changes the document. -/
theorem kept_up_same_as_fresh (server client : Card) (actions : List Action) (going : ∀ action ∈ actions, action ≠ .dispose)
    (closed : ∀ card ∈ server :: actions.scanl after client, ∀ tone ∈ card.tone, ';' ∉ tone.toList)
    (bounded : ∀ card ∈ actions.scanl after client, -2 ^ 31 ≤ card.count ∧ card.count < 2 ^ 31)
    (title : Legible server.title) (items : ∀ item ∈ server.items, Legible item) :
    ∃ taken seen shown, Live.run host (upkeep server client actions) { outside := { host := {} } } = .ok (taken, seen) shown ∧
      Forall₂ (fun trees card => ∃ fresh final,
        Live.run host (freshContainer card) { outside := { host := {} } } = .ok fresh final ∧
          Alike trees (final.outside.document.trees [fresh])) seen (actions.scanl after client) ∧
      ∃ gone, Live.run host (act taken.cells taken.container taken.scope .dispose) shown = .ok () gone ∧
        gone.outside.document.trees [taken.container] = shown.outside.document.trees [taken.container] ∧
        ∀ later : List Action, ∃ last,
          Live.run host (later.forM (act taken.cells taken.container taken.scope)) gone = .ok () last ∧
            last.outside.document = gone.outside.document := by
  have each : ∀ card ∈ actions.scanl after client, ∀ tone ∈ card.tone, ';' ∉ tone.toList :=
    fun card inside => closed card (by simp [inside])
  have first : client ∈ actions.scanl after client := by cases actions <;> simp
  have kept : (upkeep server client actions).Ensures (meaning host) 7 ({} : CardGraph) { host := {} }
      fun result graph world => Forall₂ Depicts result.2 (actions.scanl after client) ∧ ∃ setup parts card,
        result.1.cells = setup.cells ∧ result.1.scope = setup.scope ∧
          Current graph world (fun _ => False) result.1.container setup parts card := by
    refine ((ensures_takeOver idle_start (closed server (by simp)) (each client first) title items).raise (by decide)).bind ?_
    rintro taken graph world ⟨setup, parts, cells, scope, current⟩
    refine (current.ensures_watched cells scope going bounded each).bind ?_
    rintro seen graph' world' ⟨depicted, parts', card, current'⟩
    exact ensures_pure ⟨depicted, setup, parts', card, cells, scope, current'⟩
  obtain ⟨⟨taken, seen⟩, graph, world, history, ran, depicted, setup, parts, card, cells, scope, current⟩ :=
    kept depth [] (by decide)
  refine ⟨taken, seen, ⟨graph, world, history⟩, ran, ?_, ?_⟩
  · have both := ((forall₂_and_left _ _).mpr ⟨each, depicted.flip⟩).flip
    refine both.imp fun trees card ⟨closed, depicts⟩ => ?_
    obtain ⟨fresh, final, ran, alone⟩ := rendered_alone card closed
    exact ⟨fresh, final, ran, Depicts.alike depicts alone⟩
  · obtain ⟨⟨⟩, graph', world', history', disposed, finished, same⟩ := current.ensures_dispose depth history (by decide)
    rw [cells, scope]
    refine ⟨⟨graph', world', history'⟩, disposed, same, fun later => ?_⟩
    obtain ⟨⟨⟩, graph'', world'', history'', ran, still⟩ := finished.ensures_later later depth history' (by decide)
    exact ⟨⟨graph'', world'', history''⟩, ran, still⟩

/-- A card over markup with another title, to which all kinds of things happen. -/
theorem kept_up_same_as_fresh_notice : let older : Card := ⟨"active", "x < y", 7, ["only"], false, none⟩
    let notice : Card := ⟨"card wide", "", 2147483645, ["a", ""], true, some "red"⟩
    let actions : List Action := [.active false, .kind "active active", .click, .items [], .title "", .click, .tone none,
      .items ["b"], .active true, .count (-1), .click]
    ∃ taken seen shown, Live.run host (upkeep older notice actions) { outside := { host := {} } } = .ok (taken, seen) shown ∧
      Forall₂ (fun trees card => ∃ fresh final,
        Live.run host (freshContainer card) { outside := { host := {} } } = .ok fresh final ∧
          Alike trees (final.outside.document.trees [fresh])) seen (actions.scanl after notice) ∧
      ∃ gone, Live.run host (act taken.cells taken.container taken.scope .dispose) shown = .ok () gone := by
  intro older notice actions
  obtain ⟨taken, seen, shown, ran, alike, gone, disposed, _⟩ := kept_up_same_as_fresh older notice actions
    (by simp [actions]) (by simp [actions, older, notice, after]) (by simp [actions, notice, after])
    (by simp [Legible, older, isAscii]) (by simp [Legible, older, isAscii])
  exact ⟨taken, seen, shown, ran, alike, gone, disposed⟩

end LiveMarkup.Card
