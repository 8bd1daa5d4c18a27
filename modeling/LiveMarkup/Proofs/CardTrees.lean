import LiveMarkup.Proofs.CardLooks
import LiveMarkup.Proofs.Reading

/-!
The tree of a card, as a server sends it and as the template has it, and the nodes that come from it: those of markup
that is read, of a template and of its copies.
-/

namespace LiveMarkup.Card
open Document Live Markup List Prod

def endTrees (closed : Bool) : List Tree := if closed then [.comment regionEnd] else []

def lineTrees (closed : Bool) (data : String) : List Tree :=
  (if data = "" then [] else [.text data]) ++ endTrees closed

def itemTree (closed : Bool) (item : String) : Tree := .element "li" false [] (lineTrees closed item)

def frameTree (closed : Bool) (attributes headingAttributes : Attributes) (title count : String) (items : List String) :
    Tree :=
  .element "div" false attributes
    [.element "h1" false headingAttributes (lineTrees closed title),
      .element "p" false [] (.text "Count: " :: .comment regionStart :: lineTrees closed count),
      .element "button" false [] [.text "+"],
      .element "ul" false [] (items.map (itemTree closed) ++ endTrees closed)]

section Nodes

variable {doc : CardDocument} {inside : NodeId → Prop} {above : Option NodeId} {closed : Bool}
variable {nodes : List NodeId} {parent : NodeId} {attributes : Attributes} {items : List String} {data : String}

theorem shows_ending (shows : doc.ShowsAll inside (some parent) (endTrees closed) nodes) :
    (∀ n ∈ nodes, doc.node? n = some (closingRecord parent)) ∧ (closed = false → nodes = []) ∧
      (closed = true → ∃ ending, nodes = [ending]) := by
  cases closed with
  | false =>
    obtain rfl : nodes = [] := shows
    simp
  | true =>
    obtain ⟨n, rest, rfl, ⟨_, found⟩, none⟩ := shows
    obtain rfl : rest = [] := none
    refine ⟨fun m mem => ?_, by simp, fun _ => ⟨n, rfl⟩⟩
    rw [mem_singleton.mp mem]
    exact found

theorem shows_line (shows : doc.ShowsAll inside (some parent) (lineTrees closed data) nodes) :
    ∃ (text : Option (NodeId × String)) (tail : List NodeId), nodes = text.toList.map fst ++ tail ∧
      (∀ entry ∈ text, doc.node? entry.1 = some { kind := .text, data := entry.2, parent := some parent }) ∧
      (∀ entry ∈ text, entry.2 ≠ "") ∧ (text.map snd).getD "" = data ∧
      (∀ n ∈ tail, doc.node? n = some (closingRecord parent)) ∧ (closed = false → tail = []) ∧
      (closed = true → ∃ ending, tail = [ending]) := by
  unfold lineTrees at shows
  by_cases empty : data = ""
  · rw [if_pos empty, nil_append] at shows
    obtain ⟨records, unclosed, one⟩ := shows_ending shows
    exact ⟨none, nodes, by simp, by simp, by simp, by simp [empty], records, unclosed, one⟩
  · rw [if_neg empty] at shows
    obtain ⟨n, rest, rfl, ⟨_, found⟩, later⟩ := shows
    obtain ⟨records, none, one⟩ := shows_ending later
    exact ⟨some (n, data), rest, by simp, by simpa using found, by simpa using empty, rfl, records, none, one⟩

theorem labelled_of_shows {tag : String} {n : NodeId}
    (shows : doc.Shows inside above (.element tag false attributes (lineTrees closed data)) n) :
    ∃ line : Line, line.parent = n ∧ line.lead = [] ∧ Labelled doc line tag attributes above ∧ line.data = data ∧
      (∀ m ∈ line.all, inside m) ∧ (closed = false → line.tail = []) := by
  obtain ⟨here, _, found, below⟩ := shows
  obtain ⟨text, tail, rfl, texts, nonempty, same, records, none, _⟩ := shows_line below
  have leaf : ∀ m ∈ text.toList.map fst ++ tail, inside m ∧ n < m := below.inside
  refine ⟨{ parent := n, text, tail }, rfl, rfl, ⟨found, ⟨⟨by simp [found], ?_, below.once, ?_⟩, texts, nonempty, ?_⟩,
    by simp, records⟩, same, ?_, none⟩
  · simp [children_of_node? found, Line.nodes]
  · intro m (mem : m ∈ text.toList.map fst ++ tail)
    rcases mem_append.mp mem with shown | last
    · obtain ⟨entry, entryMember, rfl⟩ := mem_map.mp shown
      exact parent?_of_node? (texts entry (Option.mem_toList.mp entryMember))
    · exact parent?_of_node? (records m last)
  · intro mem
    exact Nat.lt_irrefl n (leaf n (mem_append_left tail mem)).2
  · intro m mem
    rcases mem_cons.mp mem with rfl | below
    · exact here
    · exact (leaf m below).1

theorem lines_of_shows (shows : doc.ShowsAll inside (some parent) (items.map (itemTree closed) ++ endTrees closed) nodes) :
    ∃ (lines : List Line) (tail : List NodeId), nodes = lines.map Line.parent ++ tail ∧
      (∀ line ∈ lines, Labelled doc line "li" [] (some parent) ∧ line.lead = []) ∧ lines.map Line.data = items ∧
      (∀ n ∈ tail, doc.node? n = some (closingRecord parent)) ∧ (∀ line ∈ lines, ∀ m ∈ line.all, inside m) ∧
      (closed = false → tail = []) ∧ (closed = true → ∃ ending, tail = [ending]) := by
  induction items generalizing nodes inside with
  | nil =>
    obtain ⟨records, unclosed, ended⟩ := shows_ending shows
    exact ⟨[], nodes, rfl, by simp, rfl, records, by simp, unclosed, ended⟩
  | cons _ _ ih =>
    obtain ⟨_, _, rfl, first, later⟩ := shows
    obtain ⟨line, rfl, lead, labelled, data, within, _⟩ := labelled_of_shows first
    obtain ⟨lines, tail, rfl, others, same, records, inner, ends⟩ := ih later
    refine ⟨line :: lines, tail, rfl, ?_, by simp [data, same], records, ?_, ends⟩
    · intro other mem
      rcases mem_cons.mp mem with rfl | mem
      · exact ⟨labelled, lead⟩
      · exact others other mem
    · intro other mem m here
      rcases mem_cons.mp mem with rfl | mem
      · exact (within m here).1
      · exact (inner other mem m here).1

theorem standing_of_shows {headingAttributes : Attributes} {title count : String} {root : NodeId} (large : 12 ≤ doc.nodes.size)
    (shows : doc.Shows inside above (frameTree closed attributes headingAttributes title count items) root) :
    ∃ parts : Parts, Standing doc parts ∧ parts.root = root ∧ parts.above = above ∧ parts.attributes = attributes ∧
      parts.properties = [] ∧ parts.headingAttributes = headingAttributes ∧ parts.listeners = [] ∧
      parts.heading.data = title ∧ parts.paragraph.data = count ∧ parts.items.map Line.data = items ∧
      (∀ n ∈ parts.nodes, inside n) ∧
      (closed = false → parts.heading.tail = [] ∧ parts.paragraph.tail = [] ∧ parts.tail = []) ∧
      (closed = true → ∃ ending, parts.paragraph.tail = [ending]) := by
  obtain ⟨here, _, found, h, _, rfl, heading, p, _, rfl, ⟨within, nodes, paragraph, lines⟩, b, _, rfl,
    ⟨buttonInside, _, button, plus, _, rfl, ⟨plusInside, plusFound⟩, noMore⟩, u, _, rfl,
    ⟨listInside, _, list, listed⟩, past⟩ := shows
  obtain rfl : _ = [] := noMore
  obtain rfl : _ = [] := past
  obtain ⟨heading', rfl, headingLead, headingLabelled, headingData, headingInside, headingTail⟩ := labelled_of_shows heading
  have once := lines.once
  have parents := lines.inside
  obtain ⟨l, _, rfl, ⟨_, label⟩, m, _, rfl, ⟨_, marker⟩, texts⟩ := lines
  obtain ⟨text, tail, rfl, textFound, nonempty, data, records, unclosed, ended⟩ := shows_line texts
  obtain ⟨items', listTail, rfl, itemsLabelled, itemsData, listRecords, itemsInside, listUnclosed, _⟩ := lines_of_shows listed
  let paragraph' : Line := { parent := p, lead := [l, m], text, tail }
  have labelled : Labelled doc paragraph' "p" [] (some root) := by
    refine ⟨paragraph, ⟨⟨by simp [paragraph', paragraph], by simp [paragraph', children_of_node? paragraph, Line.nodes], once,
      ?_⟩, textFound, nonempty, ?_⟩, ?_, records⟩
    · intro n (mem : n ∈ l :: m :: (text.toList.map fst ++ tail))
      rcases mem_cons.mp mem with rfl | mem
      · exact parent?_of_node? label
      rcases mem_cons.mp mem with rfl | mem
      · exact parent?_of_node? marker
      rcases mem_append.mp mem with shown | last
      · obtain ⟨entry, entryMember, rfl⟩ := mem_map.mp shown
        exact parent?_of_node? (textFound entry (Option.mem_toList.mp entryMember))
      · exact parent?_of_node? (records n last)
    · intro (mem : p ∈ text.toList.map fst)
      exact Nat.lt_irrefl p (parents p (by simp [mem_append_left tail mem])).2
    · simp [paragraph', tag?_of_node? label, tag?_of_node? marker, Kind.tag?]
  refine ⟨{ root, above, attributes, properties := [], heading := heading', headingAttributes, paragraph := paragraph',
            label := l, marker := m, button := b, listeners := [], plus, list := u, items := items', tail := listTail },
    ⟨large, found, headingLabelled, headingLead, labelled, rfl, label, marker, button, plusFound, list, itemsLabelled,
      listed.once, listRecords⟩, rfl, rfl, rfl, rfl, rfl, rfl, headingData, data, itemsData, ?_, ?_, ended⟩
  · intro n mem
    simp only [Parts.nodes, mem_cons, mem_append, mem_flatMap] at mem
    rcases mem with rfl | rfl | rfl | rfl | inHeading | inParagraph | ⟨line, lineMember, inItem⟩ | last
    · exact here
    · exact buttonInside.1.1.1.1
    · exact plusInside.1.1.1.1.1.1
    · exact listInside.1.1.1.1.1
    · exact (headingInside n inHeading).1.1
    · rcases mem_cons.mp inParagraph with rfl | leaf
      · exact within.1.1.1
      · exact (parents n leaf).1.1.1.1
    · exact (itemsInside line lineMember n inItem).1.1.1.1.1.1
    · exact (listed.inside n (mem_append_right _ last)).1.1.1.1.1.1
  · intro open_
    exact ⟨headingTail open_, unclosed open_, listUnclosed open_⟩

section Size

variable {attributes headingAttributes : Attributes} {title count : String} {items : List String} {root : NodeId}

theorem add_le_of_steps {start : Nat} (steps : List Nat) (order : (start :: steps).Pairwise (· < ·)) :
    start + steps.length ≤ (start :: steps).getLast (by simp) := by
  induction steps generalizing start with
  | nil => simp
  | cons next _ ih =>
    obtain ⟨least, later⟩ := pairwise_cons.mp order
    have first := least next (by simp)
    have last := ih later
    rw [getLast_cons (by simp), length_cons]
    omega

theorem add_lt_of_shows {size : Nat}
    (shows : doc.Shows inside above (frameTree closed attributes headingAttributes title count items) root)
    (bound : ∀ m, inside m → m < size) : root + 7 < size ∧ (closed = true → root + 10 < size) := by
  obtain ⟨here, _, found, h, _, rfl, ⟨headingInside, hNodes, _, headingBelow⟩, p, _, rfl,
    ⟨within, nodes, _, l, _, rfl, ⟨labelInside, _⟩, m, _, rfl, ⟨markerInside, _⟩, texts⟩, b, _, rfl,
    ⟨buttonInside, _, _, plus, _, rfl, ⟨plusInside, _⟩, _⟩, u, _, rfl, ⟨listInside, uNodes, _, listed⟩, _⟩ := shows
  have rootHeading : root < h := headingInside.1.2
  have headingParagraph : h < p := headingInside.2 p (by simp)
  have paragraphLabel : p < l := labelInside.1.2
  have labelMarker : l < m := markerInside.1.2
  have markerButton : m < b := markerInside.1.1.1.2 b (by simp)
  have buttonPlus : b < plus := plusInside.1.2
  have plusList : plus < u := plusInside.1.1.2 u (by simp)
  refine ⟨?_, ?_⟩
  · refine Nat.lt_of_le_of_lt (add_le_of_steps [h, p, l, m, b, plus, u] ?_) (bound u listInside.1.1.1.1.1)
    exact isChain_iff_pairwise.mp (by simp [*])
  · rintro rfl
    obtain ⟨_, _, rfl, _, _, _, _, _, ended⟩ := shows_line headingBelow
    obtain ⟨hEnd, rfl⟩ := ended rfl
    obtain ⟨_, _, rfl, _, _, _, _, _, ended⟩ := shows_line texts
    obtain ⟨pEnd, rfl⟩ := ended rfl
    obtain ⟨_, _, rfl, _, _, _, _, _, ended⟩ := lines_of_shows listed
    obtain ⟨uEnd, rfl⟩ := ended rfl
    obtain ⟨⟨_, hEndParagraph⟩, _⟩ := headingBelow.inside hEnd (by simp)
    obtain ⟨⟨⟨⟨_, pEndButton⟩, _⟩, _⟩, _⟩ := texts.inside pEnd (by simp)
    obtain ⟨endInside, _⟩ := listed.inside uEnd (by simp)
    have endParagraph : hEnd < p := hEndParagraph p (by simp)
    have endButton : pEnd < b := pEndButton b (by simp)
    refine Nat.lt_of_le_of_lt (add_le_of_steps [h, hEnd, p, l, m, pEnd, b, plus, u, uEnd] ?_)
      (bound uEnd endInside.1.1.1.1.1)
    exact isChain_iff_pairwise.mp (by simp [*])

end Size

end Nodes

end LiveMarkup.Card
