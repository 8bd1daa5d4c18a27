import LiveMarkup.Card.Client
import LiveMarkup.Proofs.Attributes
import LiveMarkup.Proofs.Cursors

/-!
The nodes of a card in a document: which there are, what is recorded of each, and what is left of that when some of
them change. A node is in the zone of an element when it is the element or stands in it as a text or comment; the zones of
a card's elements are apart, so that what happens in one leaves the others alone.
-/

namespace LiveMarkup.Document

variable {η π : Type} {doc next : Document η π}

section Zones

variable {n : NodeId}

def zone (doc : Document η π) (n : NodeId) : Option String := (doc.tag? n).or ((doc.parent? n).bind doc.tag?)

theorem tag?_of_node? {node : Node η π} (found : doc.node? n = some node) : doc.tag? n = node.kind.tag? := by
  rw [tag?, kind_of_node? found]

theorem zone_of_tag {tag : String} (tagged : doc.tag? n = some tag) : doc.zone n = some tag := by
  simp [zone, tagged]

theorem zone_of_parent {parent : NodeId} {tag : String} (plain : doc.tag? n = none) (above : doc.parent? n = some parent)
    (tagged : doc.tag? parent = some tag) : doc.zone n = some tag := by
  simp [zone, plain, above, tagged]

structure Confined (doc next : Document η π) (changed : List NodeId) : Prop where
  size_le : doc.nodes.size ≤ next.nodes.size
  others : ∀ m < doc.nodes.size, m ∉ changed → next.node? m = doc.node? m

theorem Extended.confined (extended : Extended doc next) : Confined doc next [] :=
  ⟨extended.size_le, fun m bound _ => extended.node?_eq m bound⟩

theorem Confined.zone {changed : List NodeId} {zones : List String} {other : String} (confined : Confined doc next changed)
    (mem : ∀ m ∈ changed, ∃ zone ∈ zones, doc.zone m = some zone) (apart : other ∉ zones) {m : NodeId}
    (bound : m < doc.nodes.size) (elsewhere : doc.zone m = some other) : next.node? m = doc.node? m := by
  refine confined.others m bound fun member => ?_
  obtain ⟨_, listed, here⟩ := mem m member
  rw [here] at elsewhere
  exact apart (Option.some.inj elsewhere ▸ listed)

end Zones

end LiveMarkup.Document

namespace LiveMarkup.Live
open Document Markup List

variable {η π : Type} {doc next : Document η π} {parent : NodeId}

theorem Edited.confined {n : NodeId} {before after : Node η π} (edited : Edited doc next n before after) :
    Confined doc next [n] :=
  ⟨Nat.le_of_eq edited.size_eq.symm, fun m _ apart => edited.others m (by simpa using apart)⟩

theorem Touched.confined {changed : List NodeId} (touched : Touched doc next parent changed) :
    Confined doc next (parent :: changed) := by
  refine ⟨touched.size_le, fun m bound apart => ?_⟩
  rw [mem_cons, not_or] at apart
  exact touched.others m bound apart.1 apart.2

theorem Refilled.confined {lead old new tail : List NodeId}
    (refilled : Refilled doc next parent lead old new tail) : Confined doc next (parent :: (old ++ new)) := by
  refine ⟨Nat.le_of_eq refilled.rearranged.size_eq.symm, fun m _ apart => ?_⟩
  rw [mem_cons, mem_append, not_or, not_or] at apart
  exact refilled.node?_other apart.1 apart.2.1 apart.2.2

section Labels

variable {n : NodeId}

def Line.all (line : Line) : List NodeId := line.parent :: (line.lead ++ (line.nodes ++ line.tail))

theorem Line.mem_all {line : Line} (mem : n ∈ line.parent :: line.nodes) : n ∈ line.all := by
  rcases mem_cons.mp mem with rfl | text
  · simp [Line.all]
  · simp [Line.all, text]

theorem Line.Shown.grown {line : Line} {data : String} {text : Option (NodeId × String)} (shown : line.Shown doc next data text)
    (mem : n ∈ Line.all { line with text }) : n ∈ line.all ∨ doc.nodes.size ≤ n := by
  simp only [Line.all, mem_cons, mem_append] at mem ⊢
  have fresh := shown.fresh n
  grind

def closingRecord (parent : NodeId) : Node η π := { kind := .comment, data := regionEnd, parent := some parent }

structure Labelled (doc : Document η π) (line : Line) (tag : String) (attributes : Attributes) (above : Option NodeId) :
    Prop where
  self_eq : doc.node? line.parent =
    some { kind := .element tag false, attributes, parent := above,
           children := line.lead ++ (line.nodes ++ line.tail) }
  stands : line.Stands doc
  lead_plain : ∀ n ∈ line.lead, doc.tag? n = none
  tail_eq : ∀ n ∈ line.tail, doc.node? n = some (closingRecord line.parent)

variable {line : Line} {tag : String} {attributes : Attributes} {above : Option NodeId}

theorem Line.Stands.node?_of_mem (stands : line.Stands doc) (mem : n ∈ line.nodes) :
    ∃ data, line.text = some (n, data) ∧ doc.node? n = some { kind := .text, data, parent := some line.parent } := by
  obtain ⟨entry, member, rfl⟩ := mem_map.mp mem
  have shown : line.text = some entry := Option.mem_toList.mp member
  exact ⟨entry.2, shown, stands.text_eq entry shown⟩

section

variable (labelled : Labelled doc line tag attributes above)
include labelled

theorem Labelled.tag?_parent : doc.tag? line.parent = some tag :=
  tag?_of_node? labelled.self_eq

theorem Labelled.leaf (mem : n ∈ line.lead ++ (line.nodes ++ line.tail)) :
    doc.tag? n = none ∧ doc.parent? n = some line.parent := by
  refine ⟨?_, labelled.stands.lists.parents n mem⟩
  rcases mem_append.mp mem with first | later
  · exact labelled.lead_plain n first
  rcases mem_append.mp later with text | last
  · obtain ⟨_, _, found⟩ := labelled.stands.node?_of_mem text
    exact tag?_of_node? found
  · exact tag?_of_node? (labelled.tail_eq n last)

theorem Labelled.zone : ∀ n ∈ line.all, doc.zone n = some tag := by
  intro n mem
  rcases mem_cons.mp mem with rfl | leaf
  · exact zone_of_tag labelled.tag?_parent
  · obtain ⟨plain, up⟩ := labelled.leaf leaf
    exact zone_of_parent plain up labelled.tag?_parent

theorem Labelled.nodup_all : line.all.Nodup := by
  refine nodup_cons.mpr ⟨fun mem => ?_, labelled.stands.lists.once⟩
  have plain := (labelled.leaf mem).1
  rw [labelled.tag?_parent] at plain
  cases plain

theorem Labelled.lt_size : ∀ n ∈ line.all, n < doc.nodes.size := by
  intro n mem
  rcases mem_cons.mp mem with rfl | leaf
  · exact lt_size_of_node? labelled.self_eq
  · exact lt_size_of_lists labelled.stands.lists n leaf

theorem Labelled.closes : Closes doc line.tail := by
  intro n first
  have found := labelled.tail_eq n (mem_of_mem_head? first)
  simp [isMarker, isComment, kind_of_node? found, data, found, closingRecord]

theorem Labelled.plain : ∀ n ∈ line.nodes, doc.isComment n = false := by
  intro n mem
  obtain ⟨_, _, found⟩ := labelled.stands.node?_of_mem mem
  simp [isComment, kind_of_node? found]

theorem Labelled.children_leaf (mem : n ∈ line.nodes ++ line.tail) : doc.children n = [] := by
  rcases mem_append.mp mem with text | last
  · obtain ⟨_, _, found⟩ := labelled.stands.node?_of_mem text
    rw [children_of_node? found]
  · rw [children_of_node? (labelled.tail_eq n last)]
    rfl

end

theorem Labelled.shown (labelled : Labelled doc line tag attributes above) {data : String}
    {text : Option (NodeId × String)} (shown : line.Shown doc next data text) :
    Labelled next { line with text } tag attributes above := by
  have stands := shown.stands
  have touched := shown.touched
  have once := labelled.stands.lists.once
  rw [nodup_append, nodup_append] at once
  have apart : ∀ n ∈ line.lead ++ (line.nodes ++ line.tail), n ≠ line.parent := by
    rintro _ mem rfl
    have plain := (labelled.leaf mem).1
    rw [labelled.tag?_parent] at plain
    cases plain
  have fixed : ∀ n ∈ line.lead ++ line.tail, next.node? n = doc.node? n := by
    intro n mem
    rcases mem_append.mp mem with first | last
    · have member : n ∈ line.lead ++ (line.nodes ++ line.tail) := by simp [first]
      exact touched.others n (lt_size_of_lists labelled.stands.lists n member) (apart n member)
        fun text => once.2.2 n first n (by simp [text]) rfl
    · have member : n ∈ line.lead ++ (line.nodes ++ line.tail) := by simp [last]
      exact touched.others n (lt_size_of_lists labelled.stands.lists n member) (apart n member)
        fun text => once.2.1.2.2 n text n last rfl
  refine ⟨?_, stands, fun n mem => ?_, fun n mem => ?_⟩
  · have kept := touched.self _ labelled.self_eq
    rw [stands.lists.children_eq] at kept
    exact kept
  · rw [tag?, kind, fixed n (by simp [mem])]
    exact labelled.lead_plain n mem
  · rw [fixed n (by simp [mem])]
    exact labelled.tail_eq n mem

theorem Labelled.disjoint {other : Line} {tag' : String} {attributes' : Attributes} {above' : Option NodeId}
    (one : Labelled doc line tag attributes above) (two : Labelled doc other tag' attributes' above')
    (apart : line.parent ≠ other.parent) (mem : n ∈ line.all) : n ∉ other.all := by
  intro member
  rcases mem_cons.mp mem with rfl | leaf <;> rcases mem_cons.mp member with same | leaf'
  · exact apart same
  · have plain := (two.leaf leaf').1
    rw [one.tag?_parent] at plain
    cases plain
  · have plain := (one.leaf leaf).1
    rw [same, two.tag?_parent] at plain
    cases plain
  · have up := (one.leaf leaf).2
    rw [(two.leaf leaf').2] at up
    exact apart (Option.some.inj up).symm

theorem Labelled.reparent (labelled : Labelled doc line tag attributes above) {others : Attributes}
    {other : Option NodeId}
    (moved : next.node? line.parent = some { kind := .element tag false, attributes := others, parent := other,
                                             children := line.lead ++ (line.nodes ++ line.tail) })
    (same : ∀ n ∈ line.lead ++ (line.nodes ++ line.tail), next.node? n = doc.node? n) :
    Labelled next line tag others other := by
  refine ⟨moved, ⟨⟨by simp [moved], by simp [children, moved], labelled.stands.lists.once, ?_⟩, ?_,
    labelled.stands.nonempty, labelled.stands.apart⟩, ?_, ?_⟩
  · intro n mem
    rw [parent?, same n mem]
    exact labelled.stands.lists.parents n mem
  · intro entry shown
    rw [same entry.1 (by simp [Line.nodes, Option.mem_def.mp shown])]
    exact labelled.stands.text_eq entry shown
  · intro n mem
    rw [tag?, kind, same n (by simp [mem])]
    exact labelled.lead_plain n mem
  · intro n mem
    rw [same n (by simp [mem])]
    exact labelled.tail_eq n mem

theorem Labelled.frame (labelled : Labelled doc line tag attributes above)
    (same : ∀ n ∈ line.all, next.node? n = doc.node? n) : Labelled next line tag attributes above :=
  labelled.reparent ((same line.parent (by simp [Line.all])).trans labelled.self_eq)
    fun n mem => same n (mem_cons_of_mem _ mem)

end Labels

end LiveMarkup.Live

namespace LiveMarkup.Card
open Document Live Markup List

abbrev CardDocument := Document Code Property

structure Parts where
  root : NodeId
  above : Option NodeId
  attributes : Attributes
  properties : List (String × Property)
  heading : Line
  headingAttributes : Attributes
  paragraph : Line
  label : NodeId
  marker : NodeId
  button : NodeId
  listeners : List (Listener Code)
  plus : NodeId
  list : NodeId
  items : List Line
  tail : List NodeId

namespace Parts

def rootRecord (parts : Parts) : Node Code Property :=
  { kind := .element "div" false, attributes := parts.attributes, properties := parts.properties, parent := parts.above,
    children := [parts.heading.parent, parts.paragraph.parent, parts.button, parts.list] }

def buttonRecord (parts : Parts) : Node Code Property :=
  { kind := .element "button" false, listeners := parts.listeners, parent := some parts.root, children := [parts.plus] }

def listRecord (parts : Parts) : Node Code Property :=
  { kind := .element "ul" false, parent := some parts.root, children := parts.items.map Line.parent ++ parts.tail }

def nodes (parts : Parts) : List NodeId :=
  parts.root :: parts.button :: parts.plus :: parts.list ::
    (parts.heading.all ++ (parts.paragraph.all ++ (parts.items.flatMap Line.all ++ parts.tail)))

end Parts

structure Standing (doc : CardDocument) (parts : Parts) : Prop where
  large : 12 ≤ doc.nodes.size
  root_eq : doc.node? parts.root = some parts.rootRecord
  heading : Labelled doc parts.heading "h1" parts.headingAttributes (some parts.root)
  heading_lead : parts.heading.lead = []
  paragraph : Labelled doc parts.paragraph "p" [] (some parts.root)
  paragraph_lead : parts.paragraph.lead = [parts.label, parts.marker]
  label_eq : doc.node? parts.label = some { kind := .text, data := "Count: ", parent := some parts.paragraph.parent }
  marker_eq : doc.node? parts.marker =
    some { kind := .comment, data := regionStart, parent := some parts.paragraph.parent }
  button_eq : doc.node? parts.button = some parts.buttonRecord
  plus_eq : doc.node? parts.plus = some { kind := .text, data := "+", parent := some parts.button }
  list_eq : doc.node? parts.list = some parts.listRecord
  items : ∀ line ∈ parts.items, Labelled doc line "li" [] (some parts.list) ∧ line.lead = []
  once : (parts.items.map Line.parent ++ parts.tail).Nodup
  tail_eq : ∀ n ∈ parts.tail, doc.node? n = some (closingRecord parts.list)

namespace Standing

variable {doc next : CardDocument} {parts : Parts} {text : Option (NodeId × String)} {changed : List NodeId}

section

variable (standing : Standing doc parts)
include standing

theorem zone_root : doc.zone parts.root = some "div" :=
  zone_of_tag (tag?_of_node? standing.root_eq)

theorem zone_button : doc.zone parts.button = some "button" :=
  zone_of_tag (tag?_of_node? standing.button_eq)

theorem zone_plus : doc.zone parts.plus = some "button" :=
  zone_of_parent (tag?_of_node? standing.plus_eq) (parent?_of_node? standing.plus_eq) (tag?_of_node? standing.button_eq)

theorem zone_list : doc.zone parts.list = some "ul" :=
  zone_of_tag (tag?_of_node? standing.list_eq)

theorem zone_tail {n : NodeId} (mem : n ∈ parts.tail) : doc.zone n = some "ul" :=
  zone_of_parent (tag?_of_node? (standing.tail_eq n mem)) (parent?_of_node? (standing.tail_eq n mem))
    (tag?_of_node? standing.list_eq)

theorem zone_label : doc.zone parts.label = some "p" :=
  standing.paragraph.zone parts.label (by simp [Line.all, standing.paragraph_lead])

theorem zone_marker : doc.zone parts.marker = some "p" :=
  standing.paragraph.zone parts.marker (by simp [Line.all, standing.paragraph_lead])

end

theorem lt_size (standing : Standing doc parts) : ∀ n ∈ parts.nodes, n < doc.nodes.size := by
  intro n mem
  simp only [Parts.nodes, mem_cons, mem_append, mem_flatMap] at mem
  rcases mem with rfl | rfl | rfl | rfl | heading | paragraph | ⟨line, member, item⟩ | tail
  · exact lt_size_of_node? standing.root_eq
  · exact lt_size_of_node? standing.button_eq
  · exact lt_size_of_node? standing.plus_eq
  · exact lt_size_of_node? standing.list_eq
  · exact standing.heading.lt_size n heading
  · exact standing.paragraph.lt_size n paragraph
  · exact (standing.items line member).1.lt_size n item
  · exact lt_size_of_node? (standing.tail_eq n tail)

theorem frame (standing : Standing doc parts) (large : 12 ≤ next.nodes.size)
    (same : ∀ n ∈ parts.nodes, next.node? n = doc.node? n) : Standing next parts where
  large := large
  root_eq := (same _ (by simp [Parts.nodes])).trans standing.root_eq
  heading := standing.heading.frame fun n mem => same n (by simp [Parts.nodes, mem])
  heading_lead := standing.heading_lead
  paragraph := standing.paragraph.frame fun n mem => same n (by simp [Parts.nodes, mem])
  paragraph_lead := standing.paragraph_lead
  label_eq := (same _ (by simp [Parts.nodes, Line.all, standing.paragraph_lead])).trans standing.label_eq
  marker_eq := (same _ (by simp [Parts.nodes, Line.all, standing.paragraph_lead])).trans standing.marker_eq
  button_eq := (same _ (by simp [Parts.nodes])).trans standing.button_eq
  plus_eq := (same _ (by simp [Parts.nodes])).trans standing.plus_eq
  list_eq := (same _ (by simp [Parts.nodes])).trans standing.list_eq
  items line mem := by
    refine ⟨(standing.items line mem).1.frame fun n member => same n ?_, (standing.items line mem).2⟩
    simp only [Parts.nodes, mem_cons, mem_append, mem_flatMap]
    exact .inr (.inr (.inr (.inr (.inr (.inr (.inl ⟨line, mem, member⟩))))))
  once := standing.once
  tail_eq n mem := (same n (by simp [Parts.nodes, mem])).trans (standing.tail_eq n mem)

structure Spared (next : CardDocument) (parts : Parts) (zones : List String) : Prop where
  root_eq : "div" ∉ zones → next.node? parts.root = some parts.rootRecord
  heading : "h1" ∉ zones → Labelled next parts.heading "h1" parts.headingAttributes (some parts.root)
  paragraph : "p" ∉ zones → Labelled next parts.paragraph "p" [] (some parts.root)
  label_eq : "p" ∉ zones →
    next.node? parts.label = some { kind := .text, data := "Count: ", parent := some parts.paragraph.parent }
  marker_eq : "p" ∉ zones →
    next.node? parts.marker = some { kind := .comment, data := regionStart, parent := some parts.paragraph.parent }
  button_eq : "button" ∉ zones → next.node? parts.button = some parts.buttonRecord
  plus_eq : "button" ∉ zones → next.node? parts.plus = some { kind := .text, data := "+", parent := some parts.button }
  list_eq : "ul" ∉ zones → next.node? parts.list = some parts.listRecord
  items : "li" ∉ zones → ∀ line ∈ parts.items, Labelled next line "li" [] (some parts.list) ∧ line.lead = []
  tail_eq : "ul" ∉ zones → ∀ n ∈ parts.tail, next.node? n = some (closingRecord parts.list)

section

variable (standing : Standing doc parts) {data : String}
include standing

theorem spared (zones : List String) (confined : Confined doc next changed)
    (mem : ∀ m ∈ changed, ∃ zone ∈ zones, doc.zone m = some zone) :
    Spared next parts zones where
  root_eq apart := (confined.zone mem apart (lt_size_of_node? standing.root_eq) standing.zone_root).trans standing.root_eq
  heading apart := standing.heading.frame fun n member =>
    confined.zone mem apart (standing.heading.lt_size n member) (standing.heading.zone n member)
  paragraph apart := standing.paragraph.frame fun n member =>
    confined.zone mem apart (standing.paragraph.lt_size n member) (standing.paragraph.zone n member)
  label_eq apart :=
    (confined.zone mem apart (lt_size_of_node? standing.label_eq) standing.zone_label).trans standing.label_eq
  marker_eq apart :=
    (confined.zone mem apart (lt_size_of_node? standing.marker_eq) standing.zone_marker).trans standing.marker_eq
  button_eq apart :=
    (confined.zone mem apart (lt_size_of_node? standing.button_eq) standing.zone_button).trans standing.button_eq
  plus_eq apart := (confined.zone mem apart (lt_size_of_node? standing.plus_eq) standing.zone_plus).trans standing.plus_eq
  list_eq apart := (confined.zone mem apart (lt_size_of_node? standing.list_eq) standing.zone_list).trans standing.list_eq
  items apart line member := by
    obtain ⟨labelled, lead⟩ := standing.items line member
    exact ⟨labelled.frame fun n here => confined.zone mem apart (labelled.lt_size n here) (labelled.zone n here), lead⟩
  tail_eq apart n member :=
    (confined.zone mem apart (lt_size_of_node? (standing.tail_eq n member)) (standing.zone_tail member)).trans
      (standing.tail_eq n member)

theorem withRoot (confined : Confined doc next changed)
    (mem : ∀ m ∈ changed, m = parts.root ∨ doc.tag? m = some "main") {attributes : Attributes}
    {properties : List (String × Property)} {above : Option NodeId}
    (found : next.node? parts.root = some { parts.rootRecord with attributes, properties, parent := above }) :
    Standing next { parts with attributes, properties, above } := by
  have rest := standing.spared ["div", "main"] confined fun m member => by
    rcases mem m member with rfl | main
    · exact ⟨"div", by simp, standing.zone_root⟩
    · exact ⟨"main", by simp, zone_of_tag main⟩
  exact ⟨Nat.le_trans standing.large confined.size_le, found, rest.heading (by decide), standing.heading_lead,
    rest.paragraph (by decide), standing.paragraph_lead, rest.label_eq (by decide), rest.marker_eq (by decide),
    rest.button_eq (by decide), rest.plus_eq (by decide), rest.list_eq (by decide), rest.items (by decide), standing.once,
    rest.tail_eq (by decide)⟩

theorem withHeading (confined : Confined doc next changed) (mem : ∀ m ∈ changed, m ∈ parts.heading.all)
    {headingAttributes : Attributes}
    (labelled : Labelled next { parts.heading with text } "h1" headingAttributes (some parts.root)) :
    Standing next { parts with heading := { parts.heading with text }, headingAttributes } := by
  have rest := standing.spared ["h1"] confined fun m member =>
    ⟨"h1", by simp, standing.heading.zone m (mem m member)⟩
  exact ⟨Nat.le_trans standing.large confined.size_le, rest.root_eq (by decide), labelled, standing.heading_lead,
    rest.paragraph (by decide), standing.paragraph_lead, rest.label_eq (by decide), rest.marker_eq (by decide),
    rest.button_eq (by decide), rest.plus_eq (by decide), rest.list_eq (by decide), rest.items (by decide), standing.once,
    rest.tail_eq (by decide)⟩

theorem withParagraph (shown : parts.paragraph.Shown doc next data text) :
    Standing next { parts with paragraph := { parts.paragraph with text } } := by
  have touched := shown.touched
  have confined := touched.confined
  have rest := standing.spared ["p"] confined fun m mem =>
    ⟨"p", by simp, standing.paragraph.zone m (Line.mem_all mem)⟩
  have once := standing.paragraph.stands.lists.once
  rw [standing.paragraph_lead, nodup_append] at once
  have fixed : ∀ n ∈ [parts.label, parts.marker], next.node? n = doc.node? n := by
    intro n mem
    have within : n ∈ parts.paragraph.lead ++ (parts.paragraph.nodes ++ parts.paragraph.tail) := by
      rw [standing.paragraph_lead]
      exact mem_append_left _ mem
    have leaf := standing.paragraph.leaf within
    refine touched.others n ?_ ?_ fun shown => once.2.2 n mem n (by simp [shown]) rfl
    · exact lt_size_of_lists standing.paragraph.stands.lists n within
    · rintro rfl
      rw [standing.paragraph.tag?_parent] at leaf
      cases leaf.1
  exact ⟨Nat.le_trans standing.large confined.size_le, rest.root_eq (by decide), rest.heading (by decide),
    standing.heading_lead, standing.paragraph.shown shown, standing.paragraph_lead,
    (fixed _ (by simp)).trans standing.label_eq, (fixed _ (by simp)).trans standing.marker_eq,
    rest.button_eq (by decide), rest.plus_eq (by decide), rest.list_eq (by decide), rest.items (by decide), standing.once,
    rest.tail_eq (by decide)⟩

theorem withButton (confined : Confined doc next [parts.button]) {listeners : List (Listener Code)}
    (found : next.node? parts.button = some { parts.buttonRecord with listeners }) :
    Standing next { parts with listeners } := by
  have rest := standing.spared ["button"] confined (by simp [standing.zone_button])
  have apart : parts.plus ≠ parts.button := by
    intro same
    have plus := standing.plus_eq
    rw [same, standing.button_eq] at plus
    cases plus
  have bound := lt_size_of_node? standing.plus_eq
  exact ⟨Nat.le_trans standing.large confined.size_le, rest.root_eq (by decide), rest.heading (by decide),
    standing.heading_lead, rest.paragraph (by decide), standing.paragraph_lead, rest.label_eq (by decide),
    rest.marker_eq (by decide), found, (confined.others _ bound (by simpa using apart)).trans standing.plus_eq,
    rest.list_eq (by decide), rest.items (by decide), standing.once, rest.tail_eq (by decide)⟩

theorem withItem {before after : List Line} {line : Line} (split : parts.items = before ++ line :: after) (shown : line.Shown doc next data text) :
    Standing next { parts with items := before ++ { line with text } :: after } := by
  have here := (standing.items line (by simp [split])).1
  have touched := shown.touched
  have rest := standing.spared ["li"] touched.confined fun m mem =>
    ⟨"li", by simp, here.zone m (Line.mem_all mem)⟩
  have parents : (before ++ { line with text } :: after).map Line.parent = parts.items.map Line.parent := by simp [split]
  refine ⟨Nat.le_trans standing.large touched.confined.size_le, rest.root_eq (by decide), rest.heading (by decide),
    standing.heading_lead, rest.paragraph (by decide), standing.paragraph_lead, rest.label_eq (by decide),
    rest.marker_eq (by decide), rest.button_eq (by decide), rest.plus_eq (by decide), ?_, ?_, ?_, rest.tail_eq (by decide)⟩
  · rw [Parts.listRecord, parents]
    exact rest.list_eq (by decide)
  · intro other mem
    by_cases same : other = { line with text }
    · subst same
      exact ⟨here.shown shown, (standing.items line (by simp [split])).2⟩
    · have old : other ∈ before ++ after := by
        rcases mem_append.mp mem with first | second
        · simp [first]
        · simp [(mem_cons.mp second).resolve_left same]
      have there : other ∈ parts.items := by
        rw [split]
        rcases mem_append.mp old with first | second
        · simp [first]
        · simp [second]
      have apart : other.parent ≠ line.parent := by
        have once := standing.once
        rw [split, map_append, map_cons] at once
        have nodup := (nodup_middle.mp (nodup_append.mp once).1)
        have fresh := (nodup_cons.mp nodup).1
        rw [← map_append] at fresh
        exact fun same => fresh (same ▸ mem_map_of_mem old)
      obtain ⟨labelled, lead⟩ := standing.items other there
      refine ⟨labelled.frame fun n mem => ?_, lead⟩
      exact touched.confined.others n (labelled.lt_size n mem)
        fun changed => labelled.disjoint here apart mem (Line.mem_all changed)
  · rw [parents]
    exact standing.once

end

section Items

variable {claimed remaining extra : List Line}

structure Loose (doc : CardDocument) (lines : List Line) : Prop where
  labelled : ∀ line ∈ lines, Labelled doc line "li" [] none ∧ line.lead = []
  once : (lines.map Line.parent).Nodup

theorem lists_items (standing : Standing doc parts) :
    doc.Lists parts.list ([] ++ (parts.items.map Line.parent ++ parts.tail)) := by
  refine ⟨by simp [standing.list_eq], by simp [children_of_node? standing.list_eq, Parts.listRecord], standing.once, ?_⟩
  intro n mem
  rw [nil_append] at mem
  rcases mem_append.mp mem with item | last
  · obtain ⟨line, member, rfl⟩ := mem_map.mp item
    exact parent?_of_node? (standing.items line member).1.self_eq
  · exact parent?_of_node? (standing.tail_eq n last)

variable (standing : Standing doc parts) (split : parts.items = claimed ++ remaining) (loose : Loose doc extra)
include standing split loose

theorem item_labelled {line : Line} (mem : line ∈ claimed ++ extra) :
    ∃ above, (above = none ∨ above = some parts.list) ∧ Labelled doc line "li" [] above ∧ line.lead = [] := by
  rcases mem_append.mp mem with old | new
  · exact ⟨some parts.list, .inr rfl, standing.items line (by simp [split, old])⟩
  · exact ⟨none, .inl rfl, loose.labelled line new⟩

theorem fitting_items : Fitting doc parts.list [] ((claimed ++ extra).map Line.parent) parts.tail where
  once := by
    have first : (claimed.map Line.parent).Nodup := by
      have once := (nodup_append.mp standing.once).1
      rw [split, map_append] at once
      exact (nodup_append.mp once).1
    rw [map_append, nodup_append]
    refine ⟨first, loose.once, ?_⟩
    rintro _ old _ new rfl
    obtain ⟨line, member, rfl⟩ := mem_map.mp old
    obtain ⟨other, member', same⟩ := mem_map.mp new
    have above := parent?_of_node? (standing.items line (by simp [split, member])).1.self_eq
    have nowhere := parent?_of_node? (loose.labelled other member').1.self_eq
    rw [same, above] at nowhere
    cases nowhere
  solid n mem := by
    obtain ⟨_, member, rfl⟩ := mem_map.mp mem
    obtain ⟨_, _, labelled, _⟩ := item_labelled standing split loose member
    simp [isFragment, kind_of_node? labelled.self_eq]
  inner n mem := by
    obtain ⟨_, member, rfl⟩ := mem_map.mp mem
    obtain ⟨_, _, labelled, _⟩ := item_labelled standing split loose member
    refine ⟨by simp, fun last => ?_⟩
    have plain := tag?_of_node? (standing.tail_eq _ last)
    rw [labelled.tag?_parent] at plain
    cases plain
  free n mem := by
    obtain ⟨_, member, rfl⟩ := mem_map.mp mem
    obtain ⟨_, place, labelled, _⟩ := item_labelled standing split loose member
    rw [parent?_of_node? labelled.self_eq]
    exact place

theorem withItems
    (refilled : Refilled doc next parts.list [] (parts.items.map Line.parent) ((claimed ++ extra).map Line.parent)
      parts.tail) : Standing next { parts with items := claimed ++ extra } := by
  have tagged : ∀ m ∈ parts.list :: (parts.items.map Line.parent ++ (claimed ++ extra).map Line.parent),
      (m = parts.list ∧ doc.tag? m = some "ul") ∨ doc.tag? m = some "li" := by
    intro m mem
    rcases mem_cons.mp mem with rfl | item
    · exact .inl ⟨rfl, tag?_of_node? standing.list_eq⟩
    rcases mem_append.mp item with old | new
    · obtain ⟨line, member, rfl⟩ := mem_map.mp old
      exact .inr (standing.items line member).1.tag?_parent
    · obtain ⟨_, member, rfl⟩ := mem_map.mp new
      obtain ⟨_, _, labelled, _⟩ := item_labelled standing split loose member
      exact .inr labelled.tag?_parent
  have zones : ∀ m ∈ parts.list :: (parts.items.map Line.parent ++ (claimed ++ extra).map Line.parent),
      ∃ zone ∈ ["ul", "li"], doc.zone m = some zone := by
    intro m mem
    rcases tagged m mem with ⟨_, list⟩ | item
    · exact ⟨"ul", by simp, zone_of_tag list⟩
    · exact ⟨"li", by simp, zone_of_tag item⟩
  have leaf : ∀ m < doc.nodes.size, doc.tag? m = none → next.node? m = doc.node? m := by
    intro m bound plain
    refine refilled.confined.others m bound fun mem => ?_
    rcases tagged m mem with ⟨_, list⟩ | item
    · rw [plain] at list
      cases list
    · rw [plain] at item
      cases item
  have itemsApart : ∀ line ∈ claimed ++ extra, line.parent ≠ parts.list := by
    rintro _ member same
    obtain ⟨_, _, labelled, _⟩ := item_labelled standing split loose member
    have tag := labelled.tag?_parent
    rw [same, tag?_of_node? standing.list_eq] at tag
    simp [Parts.listRecord, Kind.tag?] at tag
  have listApart : parts.list ∉ parts.items.map Line.parent ∧ parts.list ∉ (claimed ++ extra).map Line.parent := by
    refine ⟨fun mem => ?_, fun mem => ?_⟩
    · obtain ⟨line, member, same⟩ := mem_map.mp mem
      have tag := (standing.items line member).1.tag?_parent
      rw [same, tag?_of_node? standing.list_eq] at tag
      simp [Parts.listRecord, Kind.tag?] at tag
    · obtain ⟨line, member, same⟩ := mem_map.mp mem
      exact itemsApart line member same
  have rest := standing.spared ["ul", "li"] refilled.confined zones
  refine ⟨Nat.le_trans standing.large refilled.confined.size_le, rest.root_eq (by decide), rest.heading (by decide),
    standing.heading_lead, rest.paragraph (by decide), standing.paragraph_lead, rest.label_eq (by decide),
    rest.marker_eq (by decide), rest.button_eq (by decide), rest.plus_eq (by decide), ?_, ?_, refilled.lists.once, ?_⟩
  · have found := refilled.node?_parent standing.list_eq listApart.1 listApart.2
    simpa [Parts.listRecord] using found
  · intro line member
    obtain ⟨_, _, labelled, lead⟩ := item_labelled standing split loose member
    refine ⟨labelled.reparent ?_ fun n mem => ?_, lead⟩
    · exact refilled.node?_new labelled.self_eq (mem_map_of_mem member) (itemsApart line member)
    · exact leaf n (lt_size_of_lists labelled.stands.lists n mem) (labelled.leaf mem).1
  · intro n mem
    have found := standing.tail_eq n mem
    exact (leaf n (lt_size_of_node? found) (tag?_of_node? found)).trans found

end Items

end Standing

end LiveMarkup.Card
