import LiveMarkup.Blueprint.Linear
import LiveMarkup.Proofs.Blueprints

/-!
Blueprints in linear form. The items of a blueprint are well bracketed, and whoever reads them with a stack of open elements
gets the blueprint back, which depicts the template without its fragments. The marks say where an element ends and which
items are its attributes.
-/

namespace LiveMarkup.Blueprint
open Template (bind_eq_ok)
open List

mutual

/-- The items of complete nodes, one node behind the other. -/
inductive Bracketed : List Item → Prop
  | nil : Bracketed []
  | text (data : String) {behind : List Item} (rest : Bracketed behind) : Bracketed (.text data :: behind)
  | expression (given : Value) (span : Template.Span) {behind : List Item} (rest : Bracketed behind) :
      Bracketed (.expression given span :: behind)
  | empty (element : Element) (entries : List Attribute) {behind : List Item} (rest : Bracketed behind) :
      Bracketed (.element element false :: (entries.map .entry ++ .attributesEnd :: .elementEnd :: behind))
  | element (element : Element) (entries : List Attribute) {inside behind : List Item} (solid : inside ≠ [])
      (inner : Bracketed inside) (rest : Bracketed behind) :
      Bracketed (.element element true :: (entries.map .entry ++ .attributesEnd :: .childrenStart ::
        (inside ++ .childrenEnd :: .elementEnd :: behind)))
  | component (component : Component) (entries : List Attribute) {slot : LinearSlot} {behind : List Item}
      (complete : SlotBracketed slot) (rest : Bracketed behind) :
      Bracketed (.component component slot :: (entries.map .entry ++ .attributesEnd :: .elementEnd :: behind))

/-- What a component is given to show is a sequence of its own. -/
inductive SlotBracketed : LinearSlot → Prop
  | none : SlotBracketed .none
  | text (data : String) : SlotBracketed (.text data)
  | expression (given : Value) : SlotBracketed (.expression given)
  | nested (fragment : Bool) {inside : List Item} (inner : Bracketed inside) :
      SlotBracketed (.nested (inFragment fragment inside))

end

variable {nodes : List Node}

theorem linears_ne_nil (solid : nodes.isEmpty = false) : linears nodes ≠ [] := by
  cases nodes with
  | nil => cases solid
  | cons node => cases node <;> simp [linears, Node.linear]

mutual

theorem bracketed_node (node : Node) {behind : List Item} (rest : Bracketed behind) : Bracketed (node.linear ++ behind) := by
  match node with
  | .text data => exact .text data rest
  | .expression given span => exact .expression given span rest
  | .element element attrs children =>
    cases full : children.isEmpty with
    | true => simpa [Node.linear, full] using Bracketed.empty element attrs rest
    | false =>
      have inner : Bracketed (linears children ++ []) := bracketed_nodes children .nil
      rw [append_nil] at inner
      simpa [Node.linear, full] using Bracketed.element element attrs (linears_ne_nil full) inner rest
  | .component component attrs slot =>
    simpa [Node.linear] using Bracketed.component component attrs (bracketed_slot slot) rest

theorem bracketed_slot (slot : Slot) : SlotBracketed slot.linear := by
  match slot with
  | .none => exact .none
  | .text data => exact .text data
  | .expression given => exact .expression given
  | .nested fragment roots =>
    have inner : Bracketed (linears roots ++ []) := bracketed_nodes roots .nil
    rw [append_nil] at inner
    exact .nested fragment inner

theorem bracketed_nodes (nodes : List Node) {behind : List Item} (rest : Bracketed behind) :
    Bracketed (linears nodes ++ behind) := by
  match nodes with
  | [] => exact rest
  | node :: others =>
    rw [linears, append_assoc]
    exact bracketed_node node (bracketed_nodes others rest)

end

inductive Opening where
  | element (element : Element)
  | component (component : Component) (slot : Slot)

def Opening.close (opening : Opening) (entries : List Attribute) (children : List Node) : Node :=
  match opening with
  | .element head => .element head entries children
  | .component head slot => .component head entries slot

/-- An element that is open, with its attributes and children so far, the last ones first. -/
structure OpenNode where
  opening : Opening
  entries : List Attribute := []
  children : List Node := []

/-- The open elements, the innermost first, and the finished roots, the last one first. -/
structure Rebuilding where
  frames : List OpenNode := []
  roots : List Node := []

namespace Rebuilding

def add (state : Rebuilding) (node : Node) : Rebuilding :=
  match state.frames with
  | [] => { state with roots := node :: state.roots }
  | frame :: frames => { state with frames := { frame with children := node :: frame.children } :: frames }

def openNode (state : Rebuilding) (opening : Opening) : Rebuilding :=
  { state with frames := { opening } :: state.frames }

def enter (state : Rebuilding) (entry : Attribute) : Rebuilding :=
  match state.frames with
  | [] => state
  | frame :: frames => { state with frames := { frame with entries := entry :: frame.entries } :: frames }

def closeNode (state : Rebuilding) : Rebuilding :=
  match state.frames with
  | [] => state
  | frame :: frames =>
    add { state with frames } (frame.opening.close frame.entries.reverse frame.children.reverse)

/-- What was read, which is shown as a list if the first item says so. -/
def finish (items : List Item) (state : Rebuilding) : Blueprint :=
  ⟨(items.head?.map Item.isFragment).getD false, state.roots.reverse⟩

end Rebuilding

mutual

def Item.read (state : Rebuilding) : Item → Rebuilding
  | .element element _ => state.openNode (.element element)
  | .component component slot => state.openNode (.component component slot.read)
  | .text data => state.add (.text data)
  | .expression given span => state.add (.expression given span)
  | .entry given => state.enter given
  | .elementEnd => state.closeNode
  | .fragment => state
  | .attributesEnd => state
  | .childrenStart => state
  | .childrenEnd => state
  | .fragmentEnd => state

def LinearSlot.read : LinearSlot → Slot
  | .none => .none
  | .text data => .text data
  | .expression given => .expression given
  | .nested items =>
    let blueprint := (readAll {} items).finish items
    .nested blueprint.fragment blueprint.roots

def readAll (state : Rebuilding) : List Item → Rebuilding
  | [] => state
  | item :: rest => readAll (item.read state) rest

end

def rebuild (items : List Item) : Blueprint := (readAll {} items).finish items

theorem readAll_append (state : Rebuilding) (first second : List Item) :
    readAll state (first ++ second) = readAll (readAll state first) second := by
  induction first generalizing state with
  | nil => rfl
  | cons item _ ih => exact ih (item.read state)

theorem readAll_entries (opening : Opening) (frames : List OpenNode) (roots : List Node) (attrs before : List Attribute)
    (children : List Node) : readAll ⟨⟨opening, before, children⟩ :: frames, roots⟩ (attrs.map .entry) =
      ⟨⟨opening, attrs.reverse ++ before, children⟩ :: frames, roots⟩ := by
  induction attrs generalizing before with
  | nil => rfl
  | cons entry _ ih =>
    rw [map_cons, readAll, reverse_cons, append_assoc]
    exact ih (entry :: before)

theorem foldl_add_open (opening : Opening) (entries : List Attribute) (nodes before : List Node) (frames : List OpenNode)
    (roots : List Node) : nodes.foldl Rebuilding.add ⟨⟨opening, entries, before⟩ :: frames, roots⟩ =
      ⟨⟨opening, entries, nodes.reverse ++ before⟩ :: frames, roots⟩ := by
  induction nodes generalizing before with
  | nil => rfl
  | cons node _ ih =>
    rw [foldl_cons, reverse_cons, append_assoc]
    exact ih (node :: before)

theorem foldl_add_roots (nodes before : List Node) : nodes.foldl Rebuilding.add ⟨[], before⟩ = ⟨[], nodes.reverse ++ before⟩ := by
  induction nodes generalizing before with
  | nil => rfl
  | cons node _ ih =>
    rw [foldl_cons, reverse_cons, append_assoc]
    exact ih (node :: before)

theorem not_fragment_head (nodes : List Node) : ((linears nodes).head?.map Item.isFragment).getD false = false := by
  cases nodes with
  | nil => rfl
  | cons node => cases node <;> rfl

theorem rebuild_inFragment {roots : List Node} (read : readAll {} (linears roots) = roots.foldl Rebuilding.add {})
    (fragment : Bool) : rebuild (inFragment fragment (linears roots)) = ⟨fragment, roots⟩ := by
  rw [foldl_add_roots] at read
  cases fragment with
  | false => simp [rebuild, inFragment, read, Rebuilding.finish, not_fragment_head]
  | true => simp [rebuild, inFragment, readAll, Item.read, readAll_append, read, Rebuilding.finish, Item.isFragment]

mutual

theorem read_node (node : Node) (state : Rebuilding) : readAll state node.linear = state.add node := by
  match node with
  | .text _ => rfl
  | .expression _ _ => rfl
  | .element element attrs children =>
    have entries := readAll_entries (.element element) state.frames state.roots attrs [] []
    have inner := read_nodes children ⟨⟨.element element, attrs.reverse ++ [], []⟩ :: state.frames, state.roots⟩
    rw [foldl_add_open] at inner
    have shown : readAll ⟨⟨.element element, attrs.reverse ++ [], []⟩ :: state.frames, state.roots⟩
        (if children.isEmpty then [] else .childrenStart :: linears children ++ [.childrenEnd]) =
          ⟨⟨.element element, attrs.reverse ++ [], children.reverse ++ []⟩ :: state.frames, state.roots⟩ := by
      cases children with
      | nil => rfl
      | cons => exact (readAll_append _ _ [.childrenEnd]).trans (congrArg (readAll · [.childrenEnd]) inner)
    simp only [Node.linear, readAll, Item.read, readAll_append, Rebuilding.openNode, entries, shown]
    simp [Rebuilding.closeNode, Opening.close]
  | .component component attrs slot =>
    have entries := readAll_entries (.component component slot) state.frames state.roots attrs [] []
    simp only [Node.linear, readAll, Item.read, readAll_append, Rebuilding.openNode, read_slot slot, entries]
    simp [Rebuilding.closeNode, Opening.close]

theorem read_slot (slot : Slot) : slot.linear.read = slot := by
  match slot with
  | .none => rfl
  | .text _ => rfl
  | .expression _ => rfl
  | .nested fragment roots =>
    have same := rebuild_inFragment (read_nodes roots {}) fragment
    rw [rebuild] at same
    rw [Slot.linear, LinearSlot.read, same]

theorem read_nodes (nodes : List Node) (state : Rebuilding) :
    readAll state (linears nodes) = nodes.foldl Rebuilding.add state := by
  match nodes with
  | [] => rfl
  | node :: others =>
    rw [linears, readAll_append, read_node node, foldl_cons]
    exact read_nodes others (state.add node)

end

theorem rebuild_linear (blueprint : Blueprint) : rebuild (linear blueprint) = blueprint :=
  rebuild_inFragment (read_nodes blueprint.roots {}) blueprint.fragment

section Depicting

variable {tree : Template.Tree}
variable {trees : List Template.Tree} {node : Node} {α β : Type} {results : List β} {items : List α}

mutual

/-- A tree of a template and the node that stands for it: the fragments among its children are spliced into them, and its
attributes are classified. -/
inductive Depicts : Template.Tree → Node → Prop
  | text (data : String) (span : Template.Span) : Depicts (.text data span) (.text data)
  | expression {code : String} {span : Template.Span} {given : Value} (analyzed : analyze code span = .ok given) :
      Depicts (.expression code span) (.expression given span)
  | element {tag : String} {attributes : List Template.Attribute} {trees : List Template.Tree} {closed : Bool}
      {span : Template.Span} {element : Element} {entries : List Attribute} {children : List Node}
      (ordinary : Markup.Element.isComponent tag = false) (same : element.tag = tag) (place : element.span = span)
      (classified : Forall₂ (fun written entry => elementAttribute written = .ok entry) attributes entries)
      (below : Forall₂ Depicts (flatten trees) children) (childCount : element.childCount = (flatten trees).length)
      (elementCount : element.elementCount = ((flatten trees).filter isElement).length) :
      Depicts (.element tag attributes trees closed span) (.element element entries children)
  | component {tag : String} {attributes : List Template.Attribute} {trees : List Template.Tree} {closed : Bool}
      {span : Template.Span} {component : Component} {entries : List Attribute} {slot : Slot}
      (named : Markup.Element.isComponent tag = true) (path : component.path = componentPath tag)
      (place : component.span = span)
      (classified : Forall₂ (fun written entry => componentAttribute written = .ok entry) attributes entries)
      (below : Fills trees slot) (childCount : component.childCount = (flatten trees).length)
      (elementCount : component.elementCount = ((flatten trees).filter isElement).length) :
      Depicts (.element tag attributes trees closed span) (.component component entries slot)

/-- The children of a component and the slot that holds them. A single text, also one that is written as a constant, and a
single expression stand there by themselves. -/
inductive Fills : List Template.Tree → Slot → Prop
  | none {trees : List Template.Tree} (nothing : flatten trees = []) : Fills trees .none
  | text {trees : List Template.Tree} {data : String} {span : Template.Span} (single : flatten trees = [.text data span]) :
      Fills trees (.text data)
  | constant {trees : List Template.Tree} {code data : String} {span : Template.Span} {given : Value}
      (single : flatten trees = [.expression code span]) (analyzed : analyze code span = .ok given)
      (still : given.constant = some (.text data)) : Fills trees (.text data)
  | expression {trees : List Template.Tree} {code : String} {span : Template.Span} {given : Value}
      (single : flatten trees = [.expression code span]) (analyzed : analyze code span = .ok given)
      (noText : ∀ data, given.constant ≠ some (.text data)) : Fills trees (.expression given)
  | nested {trees : List Template.Tree} {fragment : Bool} {roots : List Node}
      (listed : fragment = true ↔ (flatten trees).length ≠ 1 ∨ ∃ children span, trees = [.fragment children span])
      (below : Forall₂ Depicts (flatten trees) roots) : Fills trees (.nested fragment roots)

end

theorem depicts_single {made : Node} (plain : flatten [tree] = [tree]) (depicts : Depicts tree made) :
    Forall₂ Depicts (flatten [tree]) [made] := by
  rw [plain]
  exact .cons depicts .nil

theorem PlainSlot.fills {children : List Template.Tree} {slot : Slot} (plain : PlainSlot children slot) :
    Fills children slot := by
  cases plain with
  | none flat => exact .none flat
  | text flat => exact .text flat
  | constant flat looked still => exact .constant flat looked still
  | expression flat looked noText => exact .expression flat looked noText

theorem NodesOf.depicts {inSvg : Bool} {made : List Node} (nodes : NodesOf inSvg trees made) :
    Forall₂ Depicts (flatten trees) made := by
  induction nodes with
  | nil =>
    rw [flatten]
    exact .nil
  | cons _ _ one behind =>
    rw [flatten_eq_append]
    exact rel_append one behind
  | text data span => exact depicts_single (by simp [flatten, splice]) (.text data span)
  | expression analyzed => exact depicts_single (by simp [flatten, splice]) (.expression analyzed)
  | fragment _ inner =>
    rw [flatten, splice, flatten, append_nil]
    exact inner
  | element ordinary _ _ _ mapped _ inner =>
    exact depicts_single (by simp [flatten, splice]) (.element ordinary rfl rfl (forall₂_of_mapM mapped) inner rfl rfl)
  | component named shown mapped =>
    exact depicts_single (by simp [flatten, splice]) (.component named rfl rfl (forall₂_of_mapM mapped) shown.fills rfl rfl)
  | wrapper named _ listed mapped inner =>
    exact depicts_single (by simp [flatten, splice])
      (.component named rfl rfl (forall₂_of_mapM mapped) (.nested listed inner) rfl rfl)

/-- The nodes that stand in the linear form of some roots: these and the children of elements among them, however deep. -/
inductive StandsIn (roots : List Node) : Node → Prop
  | root {node : Node} (inside : node ∈ roots) : StandsIn roots node
  | child {element : Element} {entries : List Attribute} {children : List Node} {node : Node}
      (parent : StandsIn roots (.element element entries children)) (inside : node ∈ children) : StandsIn roots node

theorem StandsIn.depicts {trees : List Template.Tree} {roots : List Node} (all : Forall₂ Depicts trees roots)
    {node : Node} (stands : StandsIn roots node) : ∃ tree, Depicts tree node := by
  induction stands with
  | root mem =>
    obtain ⟨tree, _, depicts⟩ := exists_of_forall₂ all mem
    exact ⟨tree, depicts⟩
  | child _ mem ih =>
    obtain ⟨tree, depicts⟩ := ih
    cases depicts with
    | element _ _ _ _ below =>
      obtain ⟨tree, _, depicts⟩ := exists_of_forall₂ below mem
      exact ⟨tree, depicts⟩

def Node.isElement : Node → Bool
  | .element .. => true
  | .component .. => true
  | _ => false

def Slot.childCount : Slot → Nat
  | .none => 0
  | .text _ => 1
  | .expression _ => 1
  | .nested _ roots => roots.length

def Slot.elementCount : Slot → Nat
  | .nested _ roots => (roots.filter Node.isElement).length
  | _ => 0

def Node.Counted : Node → Prop
  | .element head _ children => head.childCount = children.length ∧ head.elementCount = (children.filter Node.isElement).length
  | .component head _ slot => head.childCount = slot.childCount ∧ head.elementCount = slot.elementCount
  | _ => True

theorem Depicts.isElement_eq (depicts : Depicts tree node) : isElement tree = node.isElement := by
  cases depicts <;> rfl

theorem count_of_forall₂ (all : Forall₂ Depicts trees nodes) :
    trees.length = nodes.length ∧ (trees.filter isElement).length = (nodes.filter Node.isElement).length := by
  induction all with
  | nil => exact ⟨rfl, rfl⟩
  | @cons _ _ _ _ here _ ih =>
    rw [length_cons, length_cons, filter_cons, filter_cons, here.isElement_eq]
    refine ⟨by omega, ?_⟩
    split <;> simp [ih.2]

theorem Depicts.counted (depicts : Depicts tree node) : node.Counted := by
  cases depicts with
  | text => trivial
  | expression => trivial
  | element _ _ _ _ below childCount elementCount =>
    obtain ⟨length, elements⟩ := count_of_forall₂ below
    exact ⟨childCount.trans length, elementCount.trans elements⟩
  | component _ _ _ _ below childCount elementCount =>
    rw [Node.Counted, childCount, elementCount]
    cases below with
    | none nothing => simp [nothing, Slot.childCount, Slot.elementCount]
    | text single | constant single | expression single => simp [single, Slot.childCount, Slot.elementCount, isElement]
    | nested _ below => exact count_of_forall₂ below

end Depicting
section Navigation

variable {items : List Item} {item : Item} {before behind : List Item}

def Node.entries : Node → List Attribute
  | .element _ entries _ => entries
  | .component _ entries _ => entries
  | _ => []

def Node.head : Node → Item
  | .text data => .text data
  | .expression given span => .expression given span
  | .element head _ children => .element head !children.isEmpty
  | .component head _ slot => .component head slot.linear

def Node.body : Node → List Item
  | .element _ entries children =>
    entries.map .entry ++ .attributesEnd ::
      if children.isEmpty then [] else .childrenStart :: linears children ++ [.childrenEnd]
  | .component _ entries _ => entries.map .entry ++ [.attributesEnd]
  | _ => []

variable {node : Node}

theorem linear_eq (node : Node) :
    node.linear = node.head :: if node.isElement then node.body ++ [.elementEnd] else [] := by
  cases node <;> simp [Node.linear, Node.head, Node.body, Node.isElement]

theorem opens_head (node : Node) : node.head.opens = node.isElement := by
  cases node <;> rfl

theorem isElementEnd_head (node : Node) : node.head.isElementEnd = false := by
  cases node <;> rfl

theorem lengthToEnd_plain (opens : item.opens = false) (ends : item.isElementEnd = false) (depth : Nat) (rest : List Item) :
    lengthToEnd depth (item :: rest) = 1 + lengthToEnd depth rest := by
  rw [lengthToEnd, opens, ends]
  rfl

theorem lengthToEnd_opening (opens : item.opens = true) (depth : Nat) (rest : List Item) :
    lengthToEnd depth (item :: rest) = 1 + lengthToEnd (depth + 1) rest := by
  rw [lengthToEnd, if_pos opens]

theorem lengthToEnd_elementEnd (depth : Nat) (rest : List Item) :
    lengthToEnd depth (.elementEnd :: rest) = if depth ≤ 1 then 1 else 1 + lengthToEnd (depth - 1) rest := by
  rw [lengthToEnd]
  rfl

theorem lengthToEnd_entries (depth : Nat) (entries : List Attribute) (rest : List Item) :
    lengthToEnd depth (entries.map .entry ++ rest) = entries.length + lengthToEnd depth rest := by
  induction entries with
  | nil => simp
  | cons _ _ ih =>
    rw [map_cons, cons_append, lengthToEnd_plain rfl rfl, ih, length_cons]
    omega

theorem lengthToEnd_node
    (body : ∀ depth rest, lengthToEnd (depth + 1) (node.body ++ rest) = node.body.length + lengthToEnd (depth + 1) rest)
    (depth : Nat) (rest : List Item) :
    lengthToEnd (depth + 1) (node.linear ++ rest) = node.linear.length + lengthToEnd (depth + 1) rest := by
  rw [linear_eq]
  cases element : node.isElement with
  | false =>
    rw [if_neg Bool.false_ne_true]
    exact lengthToEnd_plain ((opens_head node).trans element) (isElementEnd_head node) _ _
  | true =>
    rw [if_pos rfl, cons_append, append_assoc, lengthToEnd_opening ((opens_head node).trans element), body,
      singleton_append, lengthToEnd_elementEnd, if_neg (by omega), length_cons, length_append,
      length_singleton, Nat.add_sub_cancel]
    omega

mutual

theorem lengthToEnd_body (node : Node) (depth : Nat) (rest : List Item) :
    lengthToEnd (depth + 1) (node.body ++ rest) = node.body.length + lengthToEnd (depth + 1) rest := by
  match node with
  | .text _ => simp [Node.body]
  | .expression _ _ => simp [Node.body]
  | .element _ _ children =>
    have inner : lengthToEnd (depth + 1)
        ((if children.isEmpty then [] else .childrenStart :: linears children ++ [.childrenEnd]) ++ rest) =
          (if children.isEmpty then [] else .childrenStart :: linears children ++ [.childrenEnd]).length +
            lengthToEnd (depth + 1) rest := by
      cases children.isEmpty with
      | true => simp
      | false =>
        rw [if_neg Bool.false_ne_true, append_assoc, cons_append, lengthToEnd_plain rfl rfl,
          lengthToEnd_nodes children, singleton_append, lengthToEnd_plain rfl rfl]
        simp
        omega
    rw [Node.body, append_assoc, lengthToEnd_entries, cons_append, lengthToEnd_plain rfl rfl, inner]
    simp
    omega
  | .component _ _ _ =>
    rw [Node.body, append_assoc, lengthToEnd_entries, singleton_append, lengthToEnd_plain rfl rfl]
    simp
    omega

theorem lengthToEnd_nodes (nodes : List Node) (depth : Nat) (rest : List Item) :
    lengthToEnd (depth + 1) (linears nodes ++ rest) = (linears nodes).length + lengthToEnd (depth + 1) rest := by
  match nodes with
  | [] => simp [linears]
  | node :: others =>
    rw [linears, append_assoc, lengthToEnd_node (lengthToEnd_body node), lengthToEnd_nodes others, length_append]
    omega

end

theorem elementEnd_of_append (element : node.isElement = true) (cut : items = before ++ (node.linear ++ behind)) :
    elementEnd items before.length = before.length + node.linear.length := by
  rw [elementEnd, cut, drop_left, linear_eq, if_pos element, cons_append, append_assoc,
    lengthToEnd_opening ((opens_head node).trans element), lengthToEnd_body, singleton_append, lengthToEnd_elementEnd,
    if_pos (by omega), length_cons, length_append, length_singleton]
  omega

theorem attributesOf_of_append (element : node.isElement = true) (cut : items = before ++ (node.linear ++ behind)) :
    attributesOf items before.length = node.entries.map .entry := by
  have plain : ∀ entries : List Attribute, ∀ item ∈ entries.map Item.entry, (!item.isAttributesEnd) = true := by
    intro entries item mem
    obtain ⟨_, -, rfl⟩ := mem_map.mp mem
    rfl
  have taken : ∀ (entries : List Attribute) (rest : List Item),
      (entries.map Item.entry ++ .attributesEnd :: rest).takeWhile (!·.isAttributesEnd) = entries.map .entry := by
    intro entries rest
    rw [takeWhile_append_of_pos (plain entries), takeWhile_cons_of_neg Bool.false_ne_true, append_nil]
  have behindHead : items.drop (before.length + 1) = node.body ++ (.elementEnd :: behind) := by
    rw [cut, ← drop_drop, drop_left, linear_eq, if_pos element]
    simp
  rw [attributesOf, behindHead]
  cases node with
  | element _ entries | component _ entries =>
    rw [Node.body, append_assoc, cons_append]
    exact taken entries _
  | _ => cases element

def Locates (roots : List Node) (items : List Item) : Prop :=
  ∀ before item behind, items = before ++ item :: behind → item.opens = true →
    ∃ node rest, StandsIn roots node ∧ node.head = item ∧ item :: behind = node.linear ++ rest

variable {roots : List Node}

theorem Locates.of_plain (plain : ∀ item ∈ items, item.opens = false) : Locates roots items := by
  rintro _ item _ rfl opens
  exact absurd opens (by simp [plain item (by simp)])

theorem Locates.single (plain : item.opens = false) : Locates roots [item] :=
  .of_plain fun other mem => by rwa [mem_singleton.mp mem]

theorem Locates.append {first second : List Item} (one : Locates roots first) (two : Locates roots second) :
    Locates roots (first ++ second) := by
  intro before item behind cut opens
  obtain ⟨between, rfl, later⟩ | ⟨between, here, same⟩ := append_eq_append_iff.mp cut
  · exact two between item behind later opens
  · cases between with
    | nil => exact two [] item behind same.symm opens
    | cons _ between =>
      obtain ⟨rfl, rfl⟩ := cons.inj same
      obtain ⟨node, rest, stands, head, cut⟩ := one before item between here opens
      exact ⟨node, rest ++ second, stands, head, by rw [← append_assoc, ← cut]; rfl⟩

theorem Locates.of_body (stands : StandsIn roots node) (body : Locates roots node.body) : Locates roots node.linear := by
  have behindHead : Locates roots (if node.isElement then node.body ++ [.elementEnd] else []) := by
    split
    · exact body.append (.single rfl)
    · exact .of_plain nofun
  intro before item behind cut opens
  cases before with
  | nil =>
    refine ⟨node, [], stands, ?_, by rw [cut]; simp⟩
    rw [linear_eq] at cut
    exact (cons.inj cut).1
  | cons _ before =>
    rw [linear_eq] at cut
    exact behindHead before item behind (cons.inj cut).2 opens

theorem opens_entries (entries : List Attribute) : ∀ item ∈ entries.map Item.entry ++ [.attributesEnd], item.opens = false := by
  intro item mem
  rcases mem_append.mp mem with mem | mem
  · obtain ⟨_, -, rfl⟩ := mem_map.mp mem
    rfl
  · rw [mem_singleton.mp mem]
    rfl

mutual

theorem locates_body (node : Node) (stands : StandsIn roots node) : Locates roots node.body := by
  match node with
  | .text _ => exact .of_plain nofun
  | .expression _ _ => exact .of_plain nofun
  | .element _ entries children =>
    have inner := locates_nodes children fun child mem => .child stands mem
    have marked : Locates roots (if children.isEmpty then [] else .childrenStart :: linears children ++ [.childrenEnd]) := by
      cases children.isEmpty with
      | true => exact .of_plain nofun
      | false => exact ((Locates.single rfl).append inner).append (.single rfl)
    have whole := (Locates.of_plain (opens_entries entries)).append marked
    rwa [append_assoc] at whole
  | .component _ entries _ => exact .of_plain (opens_entries entries)

theorem locates_nodes (nodes : List Node) (stands : ∀ node ∈ nodes, StandsIn roots node) : Locates roots (linears nodes) := by
  match nodes with
  | [] => exact .of_plain nofun
  | node :: others =>
    have here := stands node mem_cons_self
    exact (Locates.of_body here (locates_body node here)).append
      (locates_nodes others fun other mem => stands other (mem_cons_of_mem node mem))

end

theorem locates_linear (blueprint : Blueprint) : Locates blueprint.roots (linear blueprint) := by
  have inner := locates_nodes blueprint.roots fun node mem => .root mem
  unfold linear inFragment
  split
  · exact ((Locates.single rfl).append inner).append (.single rfl)
  · exact inner

end Navigation
theorem depicts_build {trees : List Template.Tree} {blueprint : Blueprint} (built : build trees = .ok blueprint) :
    Forall₂ Depicts (flatten trees) blueprint.roots ∧
      (blueprint.fragment = true ↔ (flatten trees).length ≠ 1 ∨ ∃ children span, trees = [.fragment children span]) := by
  obtain ⟨_, made, rest⟩ := bind_eq_ok built
  obtain rfl := Except.ok.inj rest
  exact ⟨(nodesOf_nodes made).depicts, listed_iff trees⟩

/-- The linear form of what is built from a template loses nothing. It is well bracketed, and reading it with a stack
gives the blueprint back, whose roots depict those of the template without its fragments. At the start of an element
`elementEnd` is the index behind its last item, `attributesOf` gives its attributes, and its counts are those of its
children. -/
theorem linear_keeps_template {trees : List Template.Tree} {blueprint : Blueprint} (built : build trees = .ok blueprint) :
    (∃ inside, Bracketed inside ∧ linear blueprint = inFragment blueprint.fragment inside) ∧
      rebuild (linear blueprint) = blueprint ∧
      List.Forall₂ Depicts (flatten trees) blueprint.roots ∧
      (blueprint.fragment = true ↔ (flatten trees).length ≠ 1 ∨ ∃ children span, trees = [.fragment children span]) ∧
      ∀ i item, (linear blueprint)[i]? = some item → item.opens = true →
        ∃ node before behind, StandsIn blueprint.roots node ∧ node.head = item ∧ node.Counted ∧
          linear blueprint = before ++ (node.linear ++ behind) ∧ before.length = i ∧
          elementEnd (linear blueprint) i = i + node.linear.length ∧ node.linear.getLast? = some .elementEnd ∧
          attributesOf (linear blueprint) i = node.entries.map .entry := by
  obtain ⟨all, listed⟩ := depicts_build built
  have inside : Bracketed (linears blueprint.roots ++ []) := bracketed_nodes blueprint.roots .nil
  rw [List.append_nil] at inside
  refine ⟨⟨_, inside, rfl⟩, rebuild_linear blueprint, all, listed, ?_⟩
  intro i item here opens
  obtain ⟨bound, here⟩ := List.getElem?_eq_some_iff.mp here
  have cut := List.take_append_drop i (linear blueprint)
  rw [List.drop_eq_getElem_cons bound, here] at cut
  obtain ⟨node, behind, stands, head, begins⟩ := locates_linear blueprint _ item _ cut.symm opens
  obtain ⟨tree, depicts⟩ := stands.depicts all
  have element : node.isElement = true := by rw [← opens_head, head, opens]
  have length : ((linear blueprint).take i).length = i := by rw [List.length_take]; omega
  have whole := cut.symm
  rw [begins] at whole
  have ends := elementEnd_of_append element whole
  have entries := attributesOf_of_append element whole
  rw [length] at ends entries
  refine ⟨node, _, behind, stands, head, depicts.counted, whole, length, ends, ?_, entries⟩
  rw [linear_eq, if_pos element, List.getLast?_cons, List.getLast?_append]
  simp

/-- A list with a component and a text in a fragment, which is spliced into it. -/
def menu : List Template.Tree :=
  [.element "ul" [.named "class:on" none default]
    [.fragment [.element "Row" [] [.text "a" default] false default, .text "b" default] default] false default]

def menuBlueprint : Blueprint :=
  ⟨false, [.element ⟨"ul", false, false, 2, 1, default, true⟩ [.value .toggle "on" .present default]
    [.component ⟨"Row", 1, 0, default⟩ [] (.text "a"), .text "b"]]⟩

theorem build_menu : build menu = .ok menuBlueprint := by
  have ordinary : Markup.Element.isComponent "ul" = false := by decide
  have named : Markup.Element.isComponent "Row" = true := by decide
  unfold build menu
  simp only [nodes]
  unfold node
  simp only [flatten, splice, nodes]
  unfold node
  simp only [nodes]
  unfold node
  simp [ordinary, named, flatten, splice]
  rfl

theorem linear_keeps_template_menu : build menu = .ok menuBlueprint ∧ rebuild (linear menuBlueprint) = menuBlueprint ∧
    Forall₂ Depicts (flatten menu) menuBlueprint.roots :=
  ⟨build_menu, (linear_keeps_template build_menu).2.1, (linear_keeps_template build_menu).2.2.1⟩

end LiveMarkup.Blueprint
