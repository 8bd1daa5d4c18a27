import LiveMarkup.Card.Session
import LiveMarkup.Proofs.CardParts
import LiveMarkup.Proofs.Contents

/-!
What a card that stands in a document looks like: the trees that it shows, where paths and claims lead in it, and which
card it shows.
-/

namespace LiveMarkup.Live
open Document Markup

variable {η π : Type} {doc : Document η π}

def Line.trees (line : Line) : List Tree :=
  (line.text.toList.map fun entry => .text entry.2) ++ line.tail.map fun _ => .comment regionEnd

theorem treesUpTo_closing {parent : NodeId} {tail : List NodeId}
    (closed : ∀ n ∈ tail, doc.node? n = some (closingRecord parent)) (fuel : Nat) :
    doc.treesUpTo (fuel + 1) tail = tail.map fun _ => .comment regionEnd := by
  have each := treesUpTo_map (fuel + 1) tail id (fun _ => Tree.comment regionEnd)
    fun n mem => treesUpTo_comment (closed n mem) rfl fuel
  simpa using each

theorem Labelled.treesUpTo {line : Line} {tag : String} {attrs : Attributes} {above : Option NodeId}
    (labelled : Labelled doc line tag attrs above) (fuel : Nat) :
    doc.treesUpTo (fuel + 1) (line.nodes ++ line.tail) = line.trees := by
  rw [treesUpTo_append, treesUpTo_closing labelled.tail_eq, Line.trees]
  congr 1
  exact treesUpTo_map (fuel + 1) line.text.toList Prod.fst (fun entry => .text entry.2) fun entry mem =>
    treesUpTo_text (labelled.stands.text_eq entry (Option.mem_toList.mp mem)) rfl fuel

end LiveMarkup.Live

namespace LiveMarkup.Card
open Document Live Markup

def Parts.tree (parts : Parts) : Tree :=
  .element "div" false parts.attributes
    [.element "h1" false parts.headingAttributes parts.heading.trees,
      .element "p" false [] (.text "Count: " :: .comment regionStart :: parts.paragraph.trees),
      .element "button" false [] [.text "+"],
      .element "ul" false []
        ((parts.items.map fun line => .element "li" false [] line.trees) ++ parts.tail.map fun _ => .comment regionEnd)]

namespace Standing

variable {doc : CardDocument} {parts : Parts}

theorem treesUpTo (standing : Standing doc parts) (fuel : Nat) : doc.treesUpTo (fuel + 4) [parts.root] = [parts.tree] := by
  have heading : doc.treesUpTo (fuel + 3) [parts.heading.parent] =
      [.element "h1" false parts.headingAttributes parts.heading.trees] := by
    rw [treesUpTo_element standing.heading.self_eq rfl, standing.heading_lead, List.nil_append, standing.heading.treesUpTo]
  have paragraph : doc.treesUpTo (fuel + 3) [parts.paragraph.parent] =
      [.element "p" false [] (.text "Count: " :: .comment regionStart :: parts.paragraph.trees)] := by
    rw [treesUpTo_element standing.paragraph.self_eq rfl, standing.paragraph_lead, List.cons_append, List.cons_append,
      List.nil_append, treesUpTo_cons, treesUpTo_cons _ parts.marker, treesUpTo_text standing.label_eq rfl,
      treesUpTo_comment standing.marker_eq rfl, standing.paragraph.treesUpTo]
    rfl
  have button : doc.treesUpTo (fuel + 3) [parts.button] = [.element "button" false [] [.text "+"]] := by
    rw [treesUpTo_element standing.button_eq rfl, Parts.buttonRecord, treesUpTo_text standing.plus_eq rfl]
  have list : doc.treesUpTo (fuel + 3) [parts.list] = [.element "ul" false []
      ((parts.items.map fun line => .element "li" false [] line.trees) ++ parts.tail.map fun _ => .comment regionEnd)] := by
    have items := treesUpTo_map (fuel + 2) parts.items Line.parent (fun line => .element "li" false [] line.trees)
      fun line mem => by
        obtain ⟨labelled, lead⟩ := standing.items line mem
        rw [treesUpTo_element labelled.self_eq rfl, lead, List.nil_append, labelled.treesUpTo]
    rw [treesUpTo_element standing.list_eq rfl, Parts.listRecord, treesUpTo_append, items,
      treesUpTo_closing standing.tail_eq]
  rw [treesUpTo_element standing.root_eq rfl, Parts.rootRecord, treesUpTo_cons, treesUpTo_cons _ parts.paragraph.parent,
    treesUpTo_cons _ parts.button, heading, paragraph, button, list]
  rfl

theorem lists_root (standing : Standing doc parts) :
    doc.Lists parts.root [parts.heading.parent, parts.paragraph.parent, parts.button, parts.list] := by
  refine ⟨by simp [standing.root_eq], by simp [children_of_node? standing.root_eq, Parts.rootRecord], ?_, ?_⟩
  · have tags : ([parts.heading.parent, parts.paragraph.parent, parts.button, parts.list].map doc.tag?).Nodup := by
      simp [standing.heading.tag?_parent, standing.paragraph.tag?_parent, tag?_of_node? standing.button_eq,
        tag?_of_node? standing.list_eq, Parts.buttonRecord, Parts.listRecord, Kind.tag?]
    exact tags.of_map
  · simp [parent?_of_node? standing.heading.self_eq, parent?_of_node? standing.paragraph.self_eq,
      parent?_of_node? standing.button_eq, parent?_of_node? standing.list_eq, Parts.buttonRecord, Parts.listRecord]

theorem not_comment {n : NodeId} {tag : String} (tagged : doc.tag? n = some tag) : doc.isComment n = false := by
  cases kind : doc.kind n <;> simp_all [isComment, tag?, Kind.tag?]

section Paths

variable (standing : Standing doc parts)
include standing

theorem follow_heading : follow? doc parts.root "f".toList = some parts.heading.parent :=
  follow?_first standing.lists_root.children_eq []

theorem follow_paragraph : follow? doc parts.heading.parent "n".toList = some parts.paragraph.parent := by
  have lists : doc.Lists parts.root ([] ++ parts.heading.parent :: parts.paragraph.parent :: [parts.button, parts.list]) :=
    standing.lists_root
  exact follow?_next lists (not_comment standing.heading.tag?_parent) []

theorem follow_marker : follow? doc parts.paragraph.parent "fn".toList = some parts.marker := by
  have lists := standing.paragraph.stands.lists
  rw [standing.paragraph_lead] at lists
  have around : doc.Lists parts.paragraph.parent
      ([] ++ parts.label :: parts.marker :: (parts.paragraph.nodes ++ parts.paragraph.tail)) := lists
  have plain : doc.isComment parts.label = false := by simp [isComment, kind_of_node? standing.label_eq]
  exact (follow?_first lists.children_eq ['n']).trans (follow?_next around plain [])

theorem follow_button : follow? doc parts.paragraph.parent "n".toList = some parts.button := by
  have lists : doc.Lists parts.root ([parts.heading.parent] ++ parts.paragraph.parent :: parts.button :: [parts.list]) :=
    standing.lists_root
  exact follow?_next lists (not_comment standing.paragraph.tag?_parent) []

theorem follow_list : follow? doc parts.button "n".toList = some parts.list := by
  have lists : doc.Lists parts.root ([parts.heading.parent, parts.paragraph.parent] ++ parts.button :: parts.list :: []) :=
    standing.lists_root
  exact follow?_next lists (not_comment (tag?_of_node? standing.button_eq)) []

theorem claims_heading : Claims (Claim.ofParent doc parts.heading.parent) parts.heading.nodes parts.heading.tail := by
  have lists := standing.heading.stands.lists
  rw [standing.heading_lead] at lists
  exact claims_ofParent lists standing.heading.plain standing.heading.closes

theorem claims_paragraph {ending : NodeId} {rest : List NodeId} (closed : parts.paragraph.tail = ending :: rest) :
    ∃ claim, Claim.ofMarker? doc parts.marker = some claim ∧
      Claims claim parts.paragraph.nodes parts.paragraph.tail := by
  have lists := standing.paragraph.stands.lists
  rw [standing.paragraph_lead, closed] at lists
  have around : doc.Lists parts.paragraph.parent
      ([parts.label] ++ parts.marker :: (parts.paragraph.nodes ++ ending :: rest)) := lists
  rw [closed]
  have ends := standing.paragraph.tail_eq ending (by simp [closed])
  refine claims_ofMarker around ?_ ?_ standing.paragraph.plain ?_
  · intro m mem
    rcases List.mem_cons.mp mem with rfl | leaf
    · rw [children_of_node? standing.marker_eq]
    · rw [← closed] at leaf
      exact standing.paragraph.children_leaf leaf
  · rintro _ mem rfl
    have leaf := standing.paragraph.leaf (by
      rw [standing.paragraph_lead, closed]
      exact List.mem_append_right [parts.label] mem)
    rw [standing.paragraph.tag?_parent] at leaf
    cases leaf.1
  · simp [isMarker, isComment, kind_of_node? ends, data, ends, closingRecord]

theorem claims_list : Claims (Claim.ofParent doc parts.list) (parts.items.map Line.parent) parts.tail := by
  refine claims_ofParent standing.lists_items ?_ ?_
  · intro n mem
    obtain ⟨line, member, rfl⟩ := List.mem_map.mp mem
    exact not_comment (standing.items line member).1.tag?_parent
  · intro n first
    have found := standing.tail_eq n (List.mem_of_mem_head? first)
    simp [isMarker, isComment, kind_of_node? found, data, found, closingRecord]

end Paths

end Standing

end LiveMarkup.Card
