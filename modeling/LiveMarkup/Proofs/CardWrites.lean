import LiveMarkup.Proofs.Dispatching
import LiveMarkup.Proofs.Styles
import LiveMarkup.Proofs.Takeover
import Mathlib.Algebra.Group.Int.Defs

/-!
What happens to a card that follows its cells. When a cell is written, the reactions that have read it bring the nodes of
the card up to date one after the other; a click at the button raises the count. In between the card always shows what its
cells hold.
-/

namespace LiveMarkup.Card
open Document Live Markup Reactive Text List Procedure Program Function

variable {level : Nat} {graph : CardGraph} {world world' : CardWorld} {fixed : NodeId → Prop} {parts parts' : Parts}
  {container : NodeId} {setup : Setup} {card : Card} {next : Card} {tone : Option String}

section Attributes

variable {attributes : Attributes}

structure Dressed (attributes : Attributes) (card : Card) : Prop where
  once : (attributes.map Prod.fst).Nodup
  classes : ∃ names, valueUnder? attributes "class" = classText names ∧ (∀ name ∈ names, IsWord name) ∧
    ∀ word, word ∈ names ↔ word ∈ classNames card
  style : valueUnder? attributes "style" = colorText card.tone
  color : OnlyColor attributes
  others : ∀ name, name ≠ "class" → name ≠ "style" → valueUnder? attributes name = none

theorem isWord_of_mem_classNames {word : String} (mem : word ∈ classNames card) : IsWord word := by
  rcases mem_toggled.mp mem with ⟨before, _⟩ | ⟨_, rfl⟩
  · exact isWord_of_mem_wordsOf before
  · exact isWord_active

theorem Dressed.mem_classesIn (dressed : Dressed attributes card) (word : String) :
    word ∈ classesIn attributes ↔ word ∈ classNames card := by
  obtain ⟨names, found, words, same⟩ := dressed.classes
  rw [← same, classesIn, found, classText]
  by_cases empty : names = []
  · simp [empty]
  · simp [empty, wordsOf_intercalate words]

theorem Dressed.withClasses (dressed : Dressed attributes card) {names : List String}
    (same : ∀ word, word ∈ names ↔ word ∈ classNames next) (tone : next.tone = card.tone) :
    Dressed (withAttribute "class" (classText names) attributes) next := by
  refine ⟨nodup_withAttribute dressed.once _ _, ⟨names, ?_, fun name mem => ?_, same⟩, ?_, ?_,
    fun name notClass notStyle => ?_⟩
  · rw [valueUnder?_withAttribute, if_pos rfl]
  · exact isWord_of_mem_classNames ((same name).mp mem)
  · rw [valueUnder?_withAttribute, if_neg (by decide), dressed.style, tone]
  · simpa [OnlyColor, valueUnder?_withAttribute] using dressed.color
  · rw [valueUnder?_withAttribute, if_neg notClass, dressed.others name notClass notStyle]

theorem Dressed.withTone (dressed : Dressed attributes card) (closed : ∀ value ∈ tone, ';' ∉ value.toList) :
    Dressed (withAttribute "style" (colorText tone) attributes) { card with tone } := by
  obtain ⟨names, found, words, same⟩ := dressed.classes
  refine ⟨nodup_withAttribute dressed.once _ _, ⟨names, ?_, words, same⟩, ?_,
    onlyColor_withAttribute (fun value given => not_mem_trimmed (closed value given)) attributes,
    fun name notClass notStyle => ?_⟩
  · rw [valueUnder?_withAttribute, if_neg (by decide), found]
  · rw [valueUnder?_withAttribute, if_pos rfl]
  · rw [valueUnder?_withAttribute, if_neg notStyle, dressed.others name notClass notStyle]

theorem dressed_dressedAttributes (closed : ∀ tone ∈ card.tone, ';' ∉ tone.toList)
    (once : (attributes.map Prod.fst).Nodup)
    (others : ∀ name, name ≠ "class" → name ≠ "style" → valueUnder? attributes name = none) :
    Dressed (dressedAttributes card attributes) card := by
  refine ⟨nodup_withAttribute (nodup_withAttribute once _ _) _ _,
    ⟨classNames card, ?_, fun _ => isWord_of_mem_classNames, fun _ => .rfl⟩, ?_,
    onlyColor_withAttribute (fun value given => not_mem_trimmed (closed value given)) _, fun name notClass notStyle => ?_⟩
  · rw [valueUnder?_dressed, if_neg (by decide), if_pos rfl]
  · rw [valueUnder?_dressed, if_pos rfl]
  · rw [valueUnder?_dressed, if_neg notStyle, if_neg notClass, others name notClass notStyle]

end Attributes

section Reactions

/-- The nodes of a card have changed, its regions have kept up, and what is fixed is as it was. -/
structure Refurnished (world world' : CardWorld) (setup : Setup) (parts : Parts) (fixed : NodeId → Prop) : Prop where
  furnished : Furnished world' setup parts fixed
  unchanged : ∀ m, fixed m → world'.document.node? m = world.document.node? m

theorem Refurnished.trans {first second third : CardWorld} {middle : Parts}
    (one : Refurnished first second setup middle fixed) (two : Refurnished second third setup parts fixed) :
    Refurnished first third setup parts fixed :=
  ⟨two.furnished, fun m here => (two.unchanged m here).trans (one.unchanged m here)⟩

variable {owner : OwnerId} {cell : CellId}

theorem Furnished.rebound (furnished : Furnished world setup parts fixed) {attributes headingAttributes : Attributes}
    {properties : List (String × Property)}
    (rebound : Rebound world world' { parts with attributes, properties, headingAttributes } fixed) :
    Refurnished world world' setup { parts with attributes, properties, headingAttributes } fixed := by
  obtain ⟨heading, count, list⟩ := furnished.spared [] rebound.beside.regions
  obtain ⟨list, found, owned, enlists⟩ := list (by simp)
  exact ⟨⟨rebound.placed, heading (by simp), count (by simp), ⟨list, found, owned, { enlists with }⟩, furnished.apart,
    furnished.listeners⟩, rebound.unchanged⟩

variable (furnished : Furnished world setup parts fixed)
include furnished

theorem Furnished.distinct : setup.heading ≠ setup.count ∧ setup.heading ≠ setup.list ∧ setup.count ≠ setup.list := by
  simpa [and_assoc] using furnished.apart

theorem Furnished.answers_heading (title : String) : Answers (meaning host) 1 setup.scope owner cell (.string title)
      (.refresh setup.heading (.dynamic (.cell cell))) world fun world' => ∃ text,
        Line.data { parts.heading with text } = title ∧
          Refurnished world world' setup { parts with heading := { parts.heading with text } } fixed := by
  obtain ⟨region, tended⟩ := furnished.heading
  have standing := furnished.placed.standing
  refine (answers_refresh rfl tended.region_eq tended.owned).mono ?_
  rintro _ rfl
  obtain ⟨text, region', shown, tended'⟩ := tended.update standing.heading.stands title (.inl standing.heading_lead)
  obtain ⟨placed, unchanged⟩ := furnished.placed.show_heading shown rfl
  obtain ⟨_, count, list⟩ := furnished.spared _
    (beside_updated world setup.heading region [.text title] : Beside _ _ _ []).regions
  obtain ⟨listRegion, found, owned, enlists⟩ := list (by simpa using furnished.distinct.2.1.symm)
  exact ⟨text, shown.data_eq, ⟨placed, ⟨region', tended'⟩, count (by simpa using furnished.distinct.1.symm),
    ⟨listRegion, found, owned, { enlists with }⟩, furnished.apart, furnished.listeners⟩, unchanged⟩

theorem Furnished.answers_count (count : Int) : Answers (meaning host) 1 setup.scope owner cell (countDatum count)
      (.refresh setup.count (.dynamic (.cell cell))) world fun world' => ∃ text,
        Line.data { parts.paragraph with text } = toString count ∧
          Refurnished world world' setup { parts with paragraph := { parts.paragraph with text } } fixed := by
  obtain ⟨region, tended⟩ := furnished.count
  have standing := furnished.placed.standing
  refine (answers_refresh rfl tended.region_eq tended.owned).mono ?_
  rintro _ rfl
  obtain ⟨text, region', shown, tended'⟩ :=
    tended.update standing.paragraph.stands (toString count) (.inr (toString_ne_empty count))
  obtain ⟨placed, unchanged⟩ := furnished.placed.show_paragraph shown rfl
  obtain ⟨heading, _, list⟩ := furnished.spared _
    (beside_updated world setup.count region [.text (toString count)] : Beside _ _ _ []).regions
  obtain ⟨listRegion, found, owned, enlists⟩ := list (by simpa using furnished.distinct.2.2.symm)
  exact ⟨text, shown.data_eq, ⟨placed, heading (by simpa using furnished.distinct.1), ⟨region', tended'⟩,
    ⟨listRegion, found, owned, { enlists with }⟩, furnished.apart, furnished.listeners⟩, unchanged⟩

theorem Furnished.answers_items (items : List String) :
    Answers (meaning host) 1 setup.scope owner cell (itemsDatum items)
      (.refresh setup.list (.dynamic (.code (.items cell)))) world fun world' => ∃ lines,
        lines.map Line.data = items ∧ Refurnished world world' setup { parts with items := lines } fixed := by
  obtain ⟨_, found, owned, enlists⟩ := furnished.list
  refine (answers_refresh_items furnished.placed found owned enlists).mono ?_
  rintro _ ⟨lines, region', listed⟩
  obtain ⟨heading, count, _⟩ := furnished.spared _ listed.beside.regions
  exact ⟨lines, listed.data_eq, ⟨listed.placed, heading (by simpa using furnished.distinct.2.1),
    count (by simpa using furnished.distinct.2.2),
    ⟨region', listed.region_eq, listed.owned, listed.enlists⟩, furnished.apart, furnished.listeners⟩, listed.unchanged⟩

end Reactions

section Presenting

structure Presents (world : CardWorld) (fixed : NodeId → Prop) (container : NodeId) (setup : Setup) (parts : Parts)
    (card : Card) : Prop where
  furnished : Furnished world setup parts (withContainer container fixed)
  displays : Displays parts card
  dressed : Dressed parts.attributes card
  container_eq : world.document.node? container = some { kind := .element "main" false, children := [parts.root] }
  above_eq : parts.above = some container

theorem Presents.housed (presents : Presents world fixed container setup parts card) :
    Housed world.document container parts :=
  ⟨presents.furnished.placed.standing, presents.container_eq, presents.above_eq⟩

structure SameSpots (parts parts' : Parts) : Prop where
  root_eq : parts'.root = parts.root
  above_eq : parts'.above = parts.above
  heading_eq : parts'.heading.parent = parts.heading.parent
  button_eq : parts'.button = parts.button

theorem SameSpots.errands_eq (same : SameSpots parts parts') (setup : Setup) :
    errands setup parts' = errands setup parts := by
  simp [errands, dressErrands, same.root_eq, same.heading_eq]

def Updated (fixed : NodeId → Prop) (container : NodeId) (setup : Setup) (parts : Parts) (card : Card) (world' : CardWorld) :
    Prop :=
  ∃ parts', SameSpots parts parts' ∧ Presents world' fixed container setup parts' card

theorem Presents.updated (presents : Presents world fixed container setup parts card)
    (refurnished : Refurnished world world' setup parts' (withContainer container fixed)) (displays : Displays parts' next)
    (dressed : Dressed parts'.attributes next) (same : SameSpots parts parts') :
    Updated fixed container setup parts next world' := by
  refine ⟨parts', same, refurnished.furnished, displays, dressed, ?_, same.above_eq.trans presents.above_eq⟩
  rw [refurnished.unchanged container (.inl rfl), same.root_eq, presents.container_eq]

variable {cell : CellId} (presents : Presents world fixed container setup parts card)
include presents

theorem Presents.answers_kind (kind : String) : AnswersEach (meaning host) 1 setup.scope cell (.string kind)
      [.bind parts.root (.plain "class") (.cell cell)] world
      (Updated fixed container setup parts { card with kind }) := by
  intro owner
  refine (answers_bind rfl parts.root (.plain "class") world).mono fun world' equal => ?_
  have rebound := presents.furnished.placed.bind_kind presents.displays.toggles rfl equal
  exact presents.updated (presents.furnished.rebound rebound)
    { presents.displays with } (presents.dressed.withClasses (fun _ => .rfl) rfl) ⟨rfl, rfl, rfl, rfl⟩

theorem Presents.answers_active (active : Bool) : AnswersEach (meaning host) 1 setup.scope cell (.bool active)
      [.bind parts.root (.toggle "active") (.cell cell)] world
      (Updated fixed container setup parts { card with active }) := by
  intro owner
  refine (answers_bind rfl parts.root (.toggle "active") world).mono fun world' equal => ?_
  have rebound := presents.furnished.placed.bind_active equal
  have names : ∀ word, word ∈ toggled (classesIn parts.attributes) "active" active ↔
      word ∈ classNames { card with active } := by
    intro word
    rw [classNames, mem_toggled, mem_toggled, presents.dressed.mem_classesIn, classNames, mem_toggled]
    tauto
  have toggles := togglesIn_rememberIn (fun toggles => { toggles with classes := putEntry "active" active toggles.classes })
    parts.properties
  rw [presents.displays.toggles] at toggles
  exact presents.updated (presents.furnished.rebound rebound)
    { presents.displays with toggles } (presents.dressed.withClasses names rfl) ⟨rfl, rfl, rfl, rfl⟩

theorem Presents.answers_tone (closed : ∀ value ∈ tone, ';' ∉ value.toList) :
    AnswersEach (meaning host) 1 setup.scope cell (toneDatum tone)
      [.bind parts.root (.style "color") (.cell cell)] world
      (Updated fixed container setup parts { card with tone }) := by
  intro owner
  refine (answers_bind (fitsAttribute_toneDatum _) parts.root (.style "color") world).mono fun world' equal => ?_
  have rebound := presents.furnished.placed.bind_tone closed presents.dressed.color equal
  have toggles := togglesIn_rememberIn (fun toggles => { toggles with styles := putEntry "color" tone toggles.styles })
    parts.properties
  rw [presents.displays.toggles] at toggles
  exact presents.updated (presents.furnished.rebound rebound)
    { presents.displays with toggles } (presents.dressed.withTone closed) ⟨rfl, rfl, rfl, rfl⟩

theorem Presents.answers_title (title : String) : AnswersEach (meaning host) 1 setup.scope cell (.string title)
      [.bind parts.heading.parent (.plain "title") (.cell cell), .refresh setup.heading (.dynamic (.cell cell))] world
      (Updated fixed container setup parts { card with title }) := by
  intro owner
  refine (answers_bind rfl parts.heading.parent (.plain "title") world).mono fun between equal => ?_
  have rebound := presents.furnished.placed.bind_title equal
  have named : putEntry "title" title parts.headingAttributes = [("title", title)] := by
    rw [presents.displays.title]
    rfl
  rw [named] at rebound
  have bound := presents.furnished.rebound rebound
  intro owner
  refine (bound.furnished.answers_heading title).mono ?_
  rintro _ ⟨_, data, shown⟩
  exact presents.updated (bound.trans shown)
    { presents.displays with title := rfl, heading := data } { presents.dressed with } ⟨rfl, rfl, rfl, rfl⟩

theorem Presents.answers_count (count : Int) : AnswersEach (meaning host) 1 setup.scope cell (countDatum count)
      [.refresh setup.count (.dynamic (.cell cell))] world (Updated fixed container setup parts { card with count }) := by
  intro owner
  refine (presents.furnished.answers_count count).mono ?_
  rintro _ ⟨_, data, shown⟩
  exact presents.updated shown { presents.displays with count := data }
    { presents.dressed with } ⟨rfl, rfl, rfl, rfl⟩

theorem Presents.answers_items (items : List String) : AnswersEach (meaning host) 1 setup.scope cell (itemsDatum items)
      [.refresh setup.list (.dynamic (.code (.items cell)))] world
      (Updated fixed container setup parts { card with items }) := by
  intro owner
  refine (presents.furnished.answers_items items).mono ?_
  rintro _ ⟨_, data, shown⟩
  exact presents.updated shown { presents.displays with items := data }
    { presents.dressed with } ⟨rfl, rfl, rfl, rfl⟩

end Presenting

section Writing

def after (card : Card) : Action → Card
  | .kind kind => { card with kind }
  | .title title => { card with title }
  | .active active => { card with active }
  | .tone tone => { card with tone }
  | .count count => { card with count }
  | .items items => { card with items }
  | .click => { card with count := card.count + 1 }
  | .dispose => card

def Action.write? (cells : Cells) (card : Card) : Action → Option (CellId × Datum)
  | .kind value => some (cells.kind, .string value)
  | .title value => some (cells.title, .string value)
  | .active value => some (cells.active, .bool value)
  | .tone value => some (cells.tone, toneDatum value)
  | .count value => some (cells.count, countDatum value)
  | .items value => some (cells.items, itemsDatum value)
  | .click => some (cells.count, countDatum (card.count + 1))
  | .dispose => none

variable {values : CellId → Option Datum} {cells : Cells} {cell : CellId} {value : Datum} {action : Action}

theorem Holds.after (holds : Holds values cells card) (once : cells.all.Nodup)
    (written : action.write? cells card = some (cell, value)) :
    (values cell).isSome ∧ Holds (update values cell (some value)) cells (card.after action) := by
  simp only [Cells.all, nodup_cons, mem_cons, not_mem_nil, or_false, not_or] at once
  obtain ⟨_, _, _, _, _, _⟩ := holds
  cases action <;> simp only [Action.write?, Option.some.injEq, Prod.mk.injEq, reduceCtorEq] at written <;>
    obtain ⟨rfl, rfl⟩ := written <;> refine ⟨by simp_all, ?_⟩ <;> constructor <;>
    simp_all [Card.after, eq_comm]

def tasksFor (setup : Setup) (parts : Parts) (cell : CellId) : List (Procedure Code Unit) :=
  ((errands setup parts).filter (·.1 = cell)).map Prod.snd

theorem tasks_of_errands {watches : List (Watch (Procedure Code))} (same : watches.map errand = errands setup parts)
    (cell : CellId) : (watches.filter (·.cell = cell)).map Watch.task = tasksFor setup parts cell := by
  rw [tasksFor, ← same, filter_map, map_map]
  rfl

theorem tasksFor_cells (once : setup.cells.all.Nodup) (parts : Parts) :
    tasksFor setup parts setup.cells.kind = [.bind parts.root (.plain "class") (.cell setup.cells.kind)] ∧
    tasksFor setup parts setup.cells.active = [.bind parts.root (.toggle "active") (.cell setup.cells.active)] ∧
    tasksFor setup parts setup.cells.tone = [.bind parts.root (.style "color") (.cell setup.cells.tone)] ∧
    tasksFor setup parts setup.cells.title = [.bind parts.heading.parent (.plain "title") (.cell setup.cells.title),
      .refresh setup.heading (.dynamic (.cell setup.cells.title))] ∧
    tasksFor setup parts setup.cells.count = [.refresh setup.count (.dynamic (.cell setup.cells.count))] ∧
    tasksFor setup parts setup.cells.items = [.refresh setup.list (.dynamic (.code (.items setup.cells.items)))] := by
  simp only [Cells.all, nodup_cons, mem_cons, not_mem_nil, or_false, not_or] at once
  refine ⟨?_, ?_, ?_, ?_, ?_, ?_⟩ <;> simp_all [tasksFor, errands, dressErrands, eq_comm]

theorem Presents.answers (presents : Presents world fixed container setup parts card) (once : setup.cells.all.Nodup)
    (written : action.write? setup.cells card = some (cell, value))
    (closed : ∀ tone ∈ (card.after action).tone, ';' ∉ tone.toList) :
    (tasksFor setup parts cell).length ≤ 2 ∧ AnswersEach (meaning host) 1 setup.scope cell value
      (tasksFor setup parts cell) world (Updated fixed container setup parts (card.after action)) := by
  obtain ⟨kinds, actives, tones, titles, counts, lists⟩ := tasksFor_cells once parts
  cases action with
  | kind kind =>
    obtain ⟨rfl, rfl⟩ := Option.some.inj written
    rw [kinds]
    exact ⟨by simp, presents.answers_kind kind⟩
  | title title =>
    obtain ⟨rfl, rfl⟩ := Option.some.inj written
    rw [titles]
    exact ⟨by simp, presents.answers_title title⟩
  | active active =>
    obtain ⟨rfl, rfl⟩ := Option.some.inj written
    rw [actives]
    exact ⟨by simp, presents.answers_active active⟩
  | tone =>
    obtain ⟨rfl, rfl⟩ := Option.some.inj written
    rw [tones]
    exact ⟨by simp, presents.answers_tone closed⟩
  | count count =>
    obtain ⟨rfl, rfl⟩ := Option.some.inj written
    rw [counts]
    exact ⟨by simp, presents.answers_count count⟩
  | items items =>
    obtain ⟨rfl, rfl⟩ := Option.some.inj written
    rw [lists]
    exact ⟨by simp, presents.answers_items items⟩
  | click =>
    obtain ⟨rfl, rfl⟩ := Option.some.inj written
    rw [counts]
    exact ⟨by simp, presents.answers_count _⟩
  | dispose => cases written

/-- A card is up to date: it shows what its cells hold, and its reactions wait for them to change. -/
structure Current (graph : CardGraph) (world : CardWorld) (fixed : NodeId → Prop) (container : NodeId) (setup : Setup)
    (parts : Parts) (card : Card) : Prop where
  waiting : Waiting graph setup parts card
  rest : AtRest graph none
  once : setup.cells.all.Nodup
  presents : Presents world fixed container setup parts card

theorem Current.reactions (current : Current graph world fixed container setup parts card)
    (written : action.write? setup.cells card = some (cell, value))
    (closed : ∀ tone ∈ (card.after action).tone, ';' ∉ tone.toList) :
    let stage (watches : List (Watch (Procedure Code))) (world : CardWorld) : Prop :=
      AnswersEach (meaning host) 1 setup.scope cell value (watches.map Watch.task) world
        (Updated fixed container setup parts (card.after action))
    ∃ values watches, Wired graph setup.scope [.unlisten parts.button setup.listener] values watches ∧
      Holds values setup.cells card ∧ (watches.filter (·.cell = cell)).length ≤ 2 ∧
      AnswersAll (meaning host) 1 setup.scope (update values cell (some value)) stage
        (watches.filter (·.cell = cell)) ∧ stage (watches.filter (·.cell = cell)) world ∧
      ∀ graph' world', Wired graph' setup.scope [.unlisten parts.button setup.listener]
        (update values cell (some value)) watches → AtRest graph' none → stage [] world' →
        ∃ parts', SameSpots parts parts' ∧ Current graph' world' fixed container setup parts' (card.after action) := by
  obtain ⟨values, watches, wired, holds, same⟩ := current.waiting
  have tasks := tasks_of_errands same cell
  obtain ⟨few, answers⟩ := current.presents.answers current.once written closed
  rw [← tasks] at few answers
  refine ⟨values, watches, wired, holds, by simpa using few, ?_, answers, ?_⟩
  · exact answersAll_of_each (update_self ..) fun watch mem => by simpa using (mem_filter.mp mem).2
  · rintro _ _ wired rest ⟨parts', spots, presents⟩
    refine ⟨parts', spots, ⟨_, watches, ?_, (holds.after current.once written).2, same.trans (spots.errands_eq setup).symm⟩,
      rest, current.once, presents⟩
    rw [spots.button_eq]
    exact wired

theorem Current.ensures_write (current : Current graph world fixed container setup parts card)
    (written : action.write? setup.cells card = some (cell, value))
    (closed : ∀ tone ∈ (card.after action).tone, ';' ∉ tone.toList) :
    (perform (.write cell value) : CardProgram Unit).Ensures (meaning host) 6 graph world
      fun _ graph' world' => ∃ parts', SameSpots parts parts' ∧
        Current graph' world' fixed container setup parts' (card.after action) := by
  obtain ⟨_, _, wired, holds, _, answers, start, ended⟩ := current.reactions written closed
  obtain ⟨_, held⟩ := Option.isSome_iff_exists.mp (holds.after current.once written).1
  refine ((Reactive.ensures_write wired current.rest held answers start).raise (by omega)).mono ?_
  rintro _ graph' world' ⟨wired, rest, _, updated⟩
  exact ended graph' world' wired rest updated

theorem raised_countDatum {count : Int} (low : -2 ^ 31 ≤ count + 1) (high : count + 1 < 2 ^ 31) :
    raised (countDatum count) = countDatum (count + 1) := by
  have wrapped : countKind.wrap (count + 1) = count + 1 := by
    show (count + 1).bmod (2 ^ 32) = count + 1
    exact Int.bmod_eq_of_le (by omega) (by omega)
  rw [countDatum, raised, wrapped]
  rfl

theorem Current.ensures_raise (current : Current graph world fixed container setup parts card)
    (low : -2 ^ 31 ≤ card.count + 1) (high : card.count + 1 < 2 ^ 31) (closed : ∀ tone ∈ card.tone, ';' ∉ tone.toList)
    (event : EventId) :
    (meaning host (.handle (.raise setup.cells.count) event)).Ensures (meaning host) 6 graph world
      fun _ graph' world' => ∃ parts', SameSpots parts parts' ∧
        Current graph' world' fixed container setup parts' (card.after .click) := by
  have written : Action.click.write? setup.cells card = some (setup.cells.count, raised (countDatum card.count)) := by
    rw [raised_countDatum low high]
    rfl
  obtain ⟨_, _, wired, holds, _, answers, start, ended⟩ := current.reactions written closed
  refine ((ensures_updateCell wired current.rest holds.count answers start).raise (by omega)).mono ?_
  rintro _ graph' world' ⟨wired, rest, _, updated⟩
  exact ended graph' world' wired rest updated

end Writing

section Clicking

variable {doc : CardDocument} {n : NodeId} {tag : String}

def isButton (doc : CardDocument) (n : NodeId) : Bool := doc.tag? n == some "button"

theorem isButton_of_tag (tagged : doc.tag? n = some tag) (other : tag ≠ "button") : isButton doc n = false := by
  simp [isButton, tagged, other]

theorem visits_past_line {line : Line} {attributes : Attributes} {above : Option NodeId}
    (labelled : Labelled doc line tag attributes above) (flat : ∀ n ∈ line.lead, doc.children n = [])
    (main : doc.tag? container = some "main") (inner : tag ≠ "main") {up next : NodeId} {before more : List NodeId}
    (beside : doc.Lists up (before ++ line.parent :: next :: more)) :
    doc.Visits container (isButton doc) line.parent next (line.lead ++ (line.nodes ++ line.tail)).length := by
  refine visits_beside labelled.stands.lists (fun n mem => ?_) (fun n mem => ?_) ?_ (fun n mem => ?_) beside
  · exact (mem_append.mp mem).elim (flat n) labelled.children_leaf
  · rintro rfl
    have plain := (labelled.leaf mem).1
    rw [main] at plain
    cases plain
  · rintro same
    have tagged := labelled.tag?_parent
    rw [same, main] at tagged
    exact inner (Option.some.inj tagged).symm
  · simp [isButton, (labelled.leaf mem).1]

section

variable (housed : Housed doc container parts)
include housed

theorem Housed.length_lt : parts.heading.all.length + parts.paragraph.all.length + 1 < doc.nodes.size := by
  have standing := housed.standing
  have main : doc.zone container = some "main" := zone_of_tag (tag?_of_node? housed.container_eq)
  have once : (container :: parts.root :: (parts.heading.all ++ parts.paragraph.all)).Nodup := by
    have zones : ∀ n ∈ parts.heading.all ++ parts.paragraph.all, doc.zone n = some "h1" ∨ doc.zone n = some "p" := by
      intro n mem
      exact (mem_append.mp mem).imp (standing.heading.zone n) (standing.paragraph.zone n)
    refine nodup_cons.mpr ⟨fun mem => ?_, nodup_cons.mpr ⟨fun mem => ?_, nodup_append.mpr
      ⟨standing.heading.nodup_all, standing.paragraph.nodup_all, ?_⟩⟩⟩
    · rcases mem_cons.mp mem with same | later
      · simp [same, standing.zone_root] at main
      · simpa [main] using zones container later
    · simpa [standing.zone_root] using zones parts.root mem
    · rintro n first _ second rfl
      have zone := standing.heading.zone n first
      simp [standing.paragraph.zone n second] at zone
  have enough := length_le_size once fun n mem => by
    rcases mem_cons.mp mem with rfl | mem
    · exact lt_size_of_node? housed.container_eq
    · refine standing.lt_size n ?_
      simp only [Parts.nodes, mem_cons, mem_append] at mem ⊢
      tauto
  simp only [length_cons, length_append] at enough
  omega

theorem Housed.firstButton?_eq : firstButton? doc container = some parts.button := by
  have standing := housed.standing
  have main : doc.tag? container = some "main" := tag?_of_node? housed.container_eq
  have root : doc.Visits container (isButton doc) container parts.root 0 :=
    visits_next (following_child (children_of_node? housed.container_eq))
  have heading : doc.Visits container (isButton doc) parts.root parts.heading.parent 0 :=
    visits_next (following_child standing.lists_root.children_eq)
  have children : doc.Lists parts.root ([] ++ parts.heading.parent :: parts.paragraph.parent :: [parts.button, parts.list]) :=
    standing.lists_root
  have children' : doc.Lists parts.root ([parts.heading.parent] ++ parts.paragraph.parent :: parts.button :: [parts.list]) :=
    standing.lists_root
  have flat : ∀ n ∈ parts.paragraph.lead, doc.children n = [] := by
    simp [standing.paragraph_lead, children_of_node? standing.label_eq, children_of_node? standing.marker_eq]
  have paragraph := visits_past_line standing.heading (by simp [standing.heading_lead]) main (by decide) children
  have button := visits_past_line standing.paragraph flat main (by decide) children'
  have whole := ((root.trans (isButton_of_tag (tag?_of_node? standing.root_eq) (by decide)) heading).trans
    (isButton_of_tag standing.heading.tag?_parent (by decide)) paragraph).trans
    (isButton_of_tag standing.paragraph.tag?_parent (by decide)) button
  have here : isButton doc parts.button = true := by
    rw [isButton, tag?_of_node? standing.button_eq]
    rfl
  refine whole.find? here ?_
  have enough := housed.length_lt
  simp only [Line.all, length_cons] at enough
  omega

theorem Housed.ancestors_button : doc.ancestors parts.button = [parts.root, container] := by
  obtain ⟨fuel, size⟩ := Nat.exists_eq_add_of_le housed.standing.large
  have up : doc.parent? parts.button = some parts.root := parent?_of_node? housed.standing.button_eq
  have above : doc.parent? parts.root = some container :=
    (parent?_of_node? housed.standing.root_eq).trans housed.above_eq
  have top : doc.parent? container = none := parent?_of_node? housed.container_eq
  rw [ancestors, size, show 12 + fuel = fuel + 9 + 1 + 1 + 1 by omega]
  simp [ancestorsUpTo, up, above, top]

theorem Housed.quiet (kind : String) : ∀ m ∈ [parts.root, container], Silent doc kind m := by
  intro m mem
  simp only [mem_cons, not_mem_nil, or_false] at mem
  rcases mem with rfl | rfl
  · exact silent_of_node? housed.standing.root_eq rfl kind
  · exact silent_of_node? housed.container_eq rfl kind

end

theorem Current.withEvents (current : Current graph world fixed container setup parts card) (events : Array Event) :
    Current graph { world with events } fixed container setup parts card :=
  { current with presents := { current.presents with
      furnished := current.presents.furnished.still (by rfl) (by rfl) (by simp) } }

theorem click_then {button : NodeId} {cells : Cells} {scope : OwnerId}
    (found : firstButton? world.document container = some button) {post : Unit → CardGraph → CardWorld → Prop}
    (dispatched : ∀ event events, Ringing events event "click" →
      (dispatch button event).Ensures (meaning host) level graph { world with events }
        fun _ graph' world' => post () graph' world') :
    (act cells container scope .click).Ensures (meaning host) level graph world post := by
  refine seeing_then ?_
  beta_reduce
  rw [found]
  refine changing_then ?_
  refine (dispatched _ _ ?_).bind fun _ graph' world' holds => ensures_pure holds
  exact ⟨{ kind := "click", bubbles := true }, by simp, rfl, rfl⟩

theorem Current.ensures_click (current : Current graph world fixed container setup parts card)
    (low : -2 ^ 31 ≤ card.count + 1) (high : card.count + 1 < 2 ^ 31) (closed : ∀ tone ∈ card.tone, ';' ∉ tone.toList) :
    (act setup.cells container setup.scope .click).Ensures (meaning host) 7 graph world fun _ graph' world' =>
      ∃ parts', SameSpots parts parts' ∧ Current graph' world' fixed container setup parts' (card.after .click) := by
  have housed := current.presents.housed
  have ancestors := housed.ancestors_button
  have heard : world.document.handlers parts.button "click" true ++ world.document.handlers parts.button "click" false =
      [.raise setup.cells.count] := by
    simp [handlers, listeners, housed.standing.button_eq, Parts.buttonRecord, current.presents.furnished.listeners]
  refine click_then housed.firstButton?_eq fun event events ringing => ?_
  refine ensures_dispatch _ ringing (by rw [ancestors]; exact housed.quiet "click") fun events => ?_
  rw [heard, ancestors]
  refine (ensures_call ((current.withEvents events).ensures_raise low high closed event)).bind ?_
  rintro _ _ _ ⟨parts', spots, current'⟩
  have quiet := current'.presents.housed.quiet "click"
  rw [spots.root_eq] at quiet
  exact ensures_pure ⟨quiet, fun events => ⟨parts', spots, current'.withEvents events⟩⟩

theorem Current.ensures_act {action : Action} (current : Current graph world fixed container setup parts card)
    (going : action ≠ .dispose) (low : -2 ^ 31 ≤ (card.after action).count) (high : (card.after action).count < 2 ^ 31)
    (closed : ∀ tone ∈ (card.after action).tone, ';' ∉ tone.toList) :
    (act setup.cells container setup.scope action).Ensures (meaning host) 7 graph world fun _ graph' world' =>
      ∃ parts', SameSpots parts parts' ∧ Current graph' world' fixed container setup parts' (card.after action) := by
  cases action with
  | click => exact current.ensures_click low high closed
  | dispose => exact absurd rfl going
  | kind | title | active | tone | count | items => exact (current.ensures_write rfl closed).raise (by decide)

end Clicking

end LiveMarkup.Card
