import LiveMarkup.Blueprint.Builder
import LiveMarkup.Proofs.Naming
import Mathlib.Data.List.Forall2

/-!
What is known of the elements of a blueprint that was built from a template: their names, what is said of them and how
many children they have. What components are given to show is left out, since it stands in templates of its own.
-/

namespace LiveMarkup.Blueprint
open Except
open Template (IsName bind_eq_ok)
open List

def Attribute.Lettered : Attribute → Prop
  | .value _ name _ _ => ∀ c ∈ name.toList, Template.Parser.isNamePart c
  | _ => True

/-- What is known of an element; `inSvg` says that it stands under an element of SVG. -/
structure BuiltElement (inSvg : Bool) (element : Element) (attributes : List Attribute) (children : List Node) : Prop where
  named : IsName element.tag
  ordinary : Markup.Element.isComponent element.tag = false
  isSvg_eq : element.isSvg = (inSvg || Markup.Element.isSvgName element.tag)
  isVoid_eq : element.isVoid = (!element.isSvg && Markup.Element.isVoid element.tag)
  empty : element.isVoid = true → children = []
  childCount_eq : element.childCount = children.length
  dynamic_eq : element.dynamic = (attributes.any Attribute.dynamic || children.any Node.dynamic)
  lettered : ∀ entry ∈ attributes, entry.Lettered

mutual

def Built (inSvg : Bool) : Node → Prop
  | .text _ => True
  | .expression _ _ => True
  | .component _ _ _ => True
  | .element element attributes children =>
    BuiltElement inSvg element attributes children ∧ BuiltAll (element.isSvg && element.tag != "foreignObject") children

def BuiltAll (inSvg : Bool) : List Node → Prop
  | [] => True
  | node :: rest => Built inSvg node ∧ BuiltAll inSvg rest

end

variable {second first : List Node}

theorem builtAll_append {inSvg : Bool} (one : BuiltAll inSvg first)
    (two : BuiltAll inSvg second) : BuiltAll inSvg (first ++ second) := by
  induction first with
  | nil => exact two
  | cons _ _ ih => exact ⟨one.1, ih one.2⟩

mutual

/-- What is said of the elements fits their attributes and children: how many children there are, and whether one of them
or an attribute changes. -/
def Fitting : Node → Prop
  | .text _ => True
  | .expression _ _ => True
  | .component _ _ _ => True
  | .element element attributes children =>
    element.childCount = children.length ∧
      element.dynamic = (attributes.any Attribute.dynamic || children.any Node.dynamic) ∧ FittingAll children

def FittingAll : List Node → Prop
  | [] => True
  | node :: rest => Fitting node ∧ FittingAll rest

end

theorem fittingAll_append (one : FittingAll first) (two : FittingAll second) : FittingAll (first ++ second) := by
  induction first with
  | nil => exact two
  | cons _ _ ih => exact ⟨one.1, ih one.2⟩

theorem mem_fittingAll {nodes : List Node} (fitting : FittingAll nodes) {node : Node} (mem : node ∈ nodes) :
    Fitting node := by
  induction nodes with
  | nil => cases mem
  | cons _ _ ih =>
    rcases mem_cons.mp mem with rfl | later
    · exact fitting.1
    · exact ih fitting.2 later

mutual

theorem Built.fitting {inSvg : Bool} {node : Node} (built : Built inSvg node) : Fitting node := by
  match node with
  | .text _ => trivial
  | .expression _ _ => trivial
  | .component _ _ _ => trivial
  | .element _ _ _ => exact ⟨built.1.childCount_eq, built.1.dynamic_eq, built.2.fitting⟩

theorem BuiltAll.fitting {inSvg : Bool} {nodes : List Node} (built : BuiltAll inSvg nodes) : FittingAll nodes := by
  match nodes with
  | [] => trivial
  | _ :: _ => exact ⟨built.1.fitting, built.2.fitting⟩

end

section Attributes

variable {given : Template.Attribute} {entry : Attribute}

theorem splitOnce_mem {mark : Char} {cs before after : List Char} (split : Text.splitOnce mark cs = some (before, after)) :
    ∀ c ∈ after, c ∈ cs := by
  induction cs generalizing before with
  | nil => cases split
  | cons d _ ih =>
    rw [Text.splitOnce] at split
    split at split
    · obtain ⟨_, rfl⟩ := Prod.mk.inj (Option.some.inj split)
      exact fun c mem => mem_cons_of_mem d mem
    · obtain ⟨⟨_, _⟩, found, same⟩ := Option.map_eq_some_iff.mp split
      obtain ⟨_, rfl⟩ := Prod.mk.inj same
      exact fun c mem => mem_cons_of_mem d (ih found c mem)

theorem splitName_letters {name : String} {space : Option String} {rest : String} (split : splitName name = (space, rest)) :
    ∀ c ∈ rest.toList, c ∈ name.toList := by
  unfold splitName at split
  split at split
  · rename_i found
    obtain ⟨_, rfl⟩ := Prod.mk.inj split
    simpa using splitOnce_mem found
  · obtain ⟨_, rfl⟩ := Prod.mk.inj split
    exact fun c mem => mem

def spaceKinds : List (Option String × AttributeKind) :=
  [(none, .plain), (some "attr", .plain), (some "xlink", .plain), (some "xml", .plain), (some "xmlns", .plain),
    (some "class", .toggle), (some "style", .style), (some "var", .customProperty), (some "prop", .property)]

inductive ClassifiedAs : Template.Attribute → Attribute → Prop
  | spread (code : String) (span : Template.Span) : ClassifiedAs (.spread code span) (.spread code span)
  | reference (code : String) (span : Template.Span) :
      ClassifiedAs (.named "ref" (some (.expression code)) span) (.reference code span)
  | value {name short : String} {value : Option Template.AttributeValue} {span : Template.Span} {kind : AttributeKind}
      {given : Value} (other : name ≠ "ref") (space : ((splitName name).1, kind) ∈ spaceKinds)
      (short_mem : ∀ c ∈ short.toList, c ∈ name.toList) (looked : attributeValue value span = .ok given) :
      ClassifiedAs (.named name value span) (.value kind short given span)
  | event {name code : String} {span : Template.Span} {capture : Bool} {handler : Value} (other : name ≠ "ref")
      (space : (splitName name).1 = some (if capture then "capture" else "on"))
      (looked : analyzeHandler code span = .ok handler) :
      ClassifiedAs (.named name (some (.expression code)) span) (.event (splitName name).2 handler capture span)
  | directive {name : String} {value : Option Template.AttributeValue} {span : Template.Span} (other : name ≠ "ref")
      (space : (splitName name).1 = some "use") : ClassifiedAs (.named name value span)
        (.directive (splitName name).2 (value.map fun
          | .literal text => Text.quoted text
          | .expression code => code) span)

theorem classifiedAs_of_elementAttribute (built : elementAttribute given = .ok entry) : ClassifiedAs given entry := by
  cases given with
  | spread code span =>
    obtain rfl := ok.inj built
    exact .spread code span
  | named name value span =>
    have valued {kind : AttributeKind} {short : String} (other : name ≠ "ref")
        (space : ((splitName name).1, kind) ∈ spaceKinds) (short_mem : ∀ c ∈ short.toList, c ∈ name.toList)
        (made : (do return .value kind short (← attributeValue value span) span : Except _ Attribute) = .ok entry) :
        ClassifiedAs (.named name value span) entry := by
      obtain ⟨_, looked, rest⟩ := bind_eq_ok made
      obtain rfl := ok.inj rest
      exact .value other space short_mem looked
    have handled {code : String} {capture : Bool} (other : name ≠ "ref") (given : value = some (.expression code))
        (space : (splitName name).1 = some (if capture then "capture" else "on"))
        (made : (do return .event (splitName name).2 (← analyzeHandler code span) capture span : Except _ Attribute) = .ok entry) :
        ClassifiedAs (.named name value span) entry := by
      obtain ⟨_, looked, rest⟩ := bind_eq_ok made
      obtain rfl := ok.inj rest
      exact given ▸ .event other space looked
    simp only [elementAttribute] at built
    split at built
    · rename_i reference
      split at built
      · obtain rfl := ok.inj built
        exact reference ▸ .reference _ span
      · cases built
    · rename_i other
      have short_mem : ∀ c ∈ (splitName name).2.toList, c ∈ name.toList := splitName_letters rfl
      have whole : ∀ c ∈ name.toList, c ∈ name.toList := fun _ mem => mem
      split at built <;> rename_i space
      · exact valued other (space ▸ by simp [spaceKinds]) short_mem built
      · exact valued other (space ▸ by simp [spaceKinds]) short_mem built
      · exact valued other (space ▸ by simp [spaceKinds]) whole built
      · exact valued other (space ▸ by simp [spaceKinds]) whole built
      · exact valued other (space ▸ by simp [spaceKinds]) whole built
      · exact valued other (space ▸ by simp [spaceKinds]) short_mem built
      · exact valued other (space ▸ by simp [spaceKinds]) short_mem built
      · exact valued other (space ▸ by simp [spaceKinds]) short_mem built
      · exact valued other (space ▸ by simp [spaceKinds]) short_mem built
      · split at built
        · exact @handled _ false other rfl space built
        · cases built
      · split at built
        · exact @handled _ true other rfl space built
        · cases built
      · obtain rfl := ok.inj built
        exact .directive other space
      · cases built

theorem lettered_elementAttribute (named : given.Named) (built : elementAttribute given = .ok entry) : entry.Lettered := by
  cases classifiedAs_of_elementAttribute built with
  | value _ _ short_mem => exact fun c mem => IsName.parts named c (short_mem c mem)
  | _ => trivial

theorem forall₂_of_mapM {α β ε : Type} {f : α → Except ε β} {items : List α} {results : List β}
    (made : items.mapM f = .ok results) : Forall₂ (fun a b => f a = .ok b) items results := by
  induction items generalizing results with
  | nil =>
    obtain rfl := ok.inj made
    exact .nil
  | cons _ _ ih =>
    rw [mapM_cons] at made
    obtain ⟨_, here, made⟩ := bind_eq_ok made
    obtain ⟨_, later, made⟩ := bind_eq_ok made
    obtain rfl := ok.inj made
    exact .cons here (ih later)

theorem exists_of_forall₂ {α β : Type} {r : α → β → Prop} {items : List α} {results : List β} (related : Forall₂ r items results)
    {b : β} (mem : b ∈ results) : ∃ a ∈ items, r a b := by
  obtain ⟨i, bound, rfl⟩ := mem_iff_getElem.mp mem
  exact ⟨items.get ⟨i, related.length_eq ▸ bound⟩, get_mem .., related.get _ bound⟩

end Attributes

section Building

theorem flatten_eq_append (tree : Template.Tree) (rest : List Template.Tree) :
    flatten (tree :: rest) = flatten [tree] ++ flatten rest := by
  simp [flatten]

/-- What is read of trees in order does not see fragments. -/
theorem read_flatten {α : Type} {read : List Template.Tree → List α} (append : ∀ one two, read (one ++ two) = read one ++ read two)
    (fragment : ∀ children span, read [.fragment children span] = read children) (trees : List Template.Tree) :
    read (flatten trees) = read trees := by
  match trees with
  | [] => rfl
  | .fragment children span :: rest =>
    rw [flatten, splice, append, read_flatten append fragment children, read_flatten append fragment rest, ← fragment _ span]
    exact (append [.fragment children span] rest).symm
  | .text .. :: rest | .expression .. :: rest | .element .. :: rest =>
    show read ([_] ++ flatten rest) = read ([_] ++ rest)
    rw [append, append, read_flatten append fragment rest]

theorem listed_iff (trees : List Template.Tree) : ((flatten trees).length != 1 || (match trees with
      | [.fragment ..] => true
      | _ => false)) = true ↔ (flatten trees).length ≠ 1 ∨ ∃ children span, trees = [.fragment children span] := by
  rw [Bool.or_eq_true, bne_iff_ne]
  refine or_congr_right ?_
  split
  · simp
  · rename_i other
    simp only [Bool.false_eq_true, false_iff, not_exists]
    exact fun children span same => other children span same

/-- What a component shows of children that leave at most one piece of text or code. -/
inductive PlainSlot (children : List Template.Tree) : Slot → Prop
  | none (flat : flatten children = []) : PlainSlot children .none
  | text {data : String} {span : Template.Span} (flat : flatten children = [.text data span]) : PlainSlot children (.text data)
  | constant {code data : String} {span : Template.Span} {given : Value} (flat : flatten children = [.expression code span])
      (looked : analyze code span = .ok given) (still : given.constant = some (.text data)) : PlainSlot children (.text data)
  | expression {code : String} {span : Template.Span} {given : Value} (flat : flatten children = [.expression code span])
      (looked : analyze code span = .ok given) (noText : ∀ data, given.constant ≠ some (.text data)) :
      PlainSlot children (.expression given)

/-- Trees and the nodes that are made from them, with all that was looked at on the way. What holds of the nodes of every
template follows by induction on this relation. -/
inductive NodesOf : (inSvg : Bool) → List Template.Tree → List Node → Prop
  | nil {inSvg : Bool} : NodesOf inSvg [] []
  | cons {inSvg : Bool} {tree : Template.Tree} {rest : List Template.Tree} {first others : List Node}
      (one : NodesOf inSvg [tree] first) (behind : NodesOf inSvg rest others) : NodesOf inSvg (tree :: rest) (first ++ others)
  | text {inSvg : Bool} (data : String) (span : Template.Span) : NodesOf inSvg [.text data span] [.text data]
  | expression {inSvg : Bool} {code : String} {span : Template.Span} {given : Value} (looked : analyze code span = .ok given) :
      NodesOf inSvg [.expression code span] [.expression given span]
  | fragment {inSvg : Bool} {children : List Template.Tree} {span : Template.Span} {made : List Node}
      (inner : NodesOf inSvg children made) : NodesOf inSvg [.fragment children span] made
  | element {inSvg isSvg isVoid : Bool} {tag : String} {attributes : List Template.Attribute} {children : List Template.Tree}
      {closed : Bool} {span : Template.Span} {entries : List Attribute} {made : List Node}
      (ordinary : Markup.Element.isComponent tag = false) (svg : isSvg = (inSvg || Markup.Element.isSvgName tag))
      (void : isVoid = (!isSvg && Markup.Element.isVoid tag)) (empty : isVoid = true → (flatten children).length = 0)
      (mapped : attributes.mapM elementAttribute = .ok entries)
      (inner : NodesOf (isSvg && tag != "foreignObject") children made) :
      NodesOf inSvg [.element tag attributes children closed span]
        [.element ⟨tag, isVoid, isSvg, (flatten children).length, ((flatten children).filter isElement).length, span,
          entries.any Attribute.dynamic || made.any Node.dynamic⟩ entries made]
  | component {inSvg : Bool} {tag : String} {attributes : List Template.Attribute} {children : List Template.Tree}
      {closed : Bool} {span : Template.Span} {entries : List Attribute} {slot : Slot}
      (component : Markup.Element.isComponent tag = true) (shown : PlainSlot children slot)
      (mapped : attributes.mapM componentAttribute = .ok entries) :
      NodesOf inSvg [.element tag attributes children closed span] [.component ⟨componentPath tag, (flatten children).length,
        ((flatten children).filter isElement).length, span⟩ entries slot]
  | wrapper {inSvg : Bool} {tag : String} {attributes : List Template.Attribute} {children : List Template.Tree}
      {closed : Bool} {span : Template.Span} {entries : List Attribute} {fragment : Bool} {roots : List Node}
      (component : Markup.Element.isComponent tag = true) (inner : NodesOf false children roots)
      (listed : fragment = true ↔ (flatten children).length ≠ 1 ∨ ∃ trees span, children = [.fragment trees span])
      (mapped : attributes.mapM componentAttribute = .ok entries) :
      NodesOf inSvg [.element tag attributes children closed span] [.component ⟨componentPath tag, (flatten children).length,
        ((flatten children).filter isElement).length, span⟩ entries (.nested fragment roots)]

mutual

theorem nodesOf_node {inSvg : Bool} {tree : Template.Tree} {made : List Node} (built : node inSvg tree = .ok made) :
    NodesOf inSvg [tree] made := by
  match tree with
  | .text data span =>
    rw [node] at built
    obtain rfl := ok.inj built
    exact .text data span
  | .expression _ _ =>
    rw [node] at built
    obtain ⟨_, looked, rest⟩ := bind_eq_ok built
    obtain rfl := ok.inj rest
    exact .expression looked
  | .fragment _ _ =>
    rw [node] at built
    exact .fragment (nodesOf_nodes built)
  | .element tag attrs children closed span =>
    unfold node at built
    dsimp only at built
    split at built
    · rename_i component
      have plain {slot : Slot} (shown : PlainSlot children slot) (built : (do
            let slot ← (pure slot : Except _ Slot)
            let attrs ← attrs.mapM componentAttribute
            return [Node.component ⟨componentPath tag, (flatten children).length, ((flatten children).filter isElement).length,
              span⟩ attrs slot]) = .ok made) : NodesOf inSvg [.element tag attrs children closed span] made := by
        obtain ⟨_, same, rest⟩ := bind_eq_ok built
        obtain rfl := ok.inj same
        obtain ⟨_, mapped, rest⟩ := bind_eq_ok rest
        obtain rfl := ok.inj rest
        exact .component component shown mapped
      split at built
      · rename_i flat
        exact plain (.none flat) built
      · rename_i flat
        exact plain (.text flat) built
      · rename_i flat
        obtain ⟨_, looked, built⟩ := bind_eq_ok built
        split at built
        · rename_i still
          exact plain (.constant flat looked still) built
        · rename_i noText
          exact plain (.expression flat looked noText) built
      · obtain ⟨_, inner, built⟩ := bind_eq_ok built
        obtain ⟨_, same, built⟩ := bind_eq_ok built
        obtain rfl := ok.inj same
        obtain ⟨_, mapped, rest⟩ := bind_eq_ok built
        obtain rfl := ok.inj rest
        exact .wrapper component (nodesOf_nodes inner) (listed_iff children) mapped
    · rename_i ordinary
      split at built
      · cases built
      · rename_i full
        obtain ⟨_, mapped, rest⟩ := bind_eq_ok built
        obtain ⟨_, below, rest⟩ := bind_eq_ok rest
        obtain rfl := ok.inj rest
        refine .element (by simpa using ordinary) rfl rfl (fun void => ?_) mapped (nodesOf_nodes below)
        rwa [void, Bool.true_and, bne_iff_ne, ne_eq, Decidable.not_not] at full

theorem nodesOf_nodes {inSvg : Bool} {trees : List Template.Tree} {made : List Node} (built : nodes inSvg trees = .ok made) :
    NodesOf inSvg trees made := by
  match trees with
  | [] =>
    rw [nodes] at built
    obtain rfl := ok.inj built
    exact .nil
  | tree :: rest =>
    rw [nodes] at built
    obtain ⟨_, here, built⟩ := bind_eq_ok built
    obtain ⟨_, later, built⟩ := bind_eq_ok built
    obtain rfl := ok.inj built
    exact .cons (nodesOf_node here) (nodesOf_nodes later)

end

variable {inSvg : Bool} {trees : List Template.Tree} {made : List Node}

theorem NodesOf.length_eq (nodes : NodesOf inSvg trees made) : made.length = (flatten trees).length := by
  induction nodes with
  | cons _ _ one behind => rw [length_append, one, behind, ← length_append, ← flatten_eq_append]
  | fragment _ inner => rw [inner, flatten, splice, flatten, append_nil]
  | _ => simp [flatten, splice]

theorem NodesOf.built (nodes : NodesOf inSvg trees made) (named : Template.Tree.NamedAll trees) : BuiltAll inSvg made := by
  induction nodes with
  | nil => trivial
  | cons _ _ one behind => exact builtAll_append (one ⟨named.1, trivial⟩) (behind named.2)
  | fragment _ inner => exact inner named.1
  | element ordinary svg void empty mapped below inner =>
    refine ⟨⟨⟨named.1.1, ordinary, svg, void, fun isVoid => eq_nil_of_length_eq_zero (below.length_eq.trans (empty isVoid)),
      below.length_eq.symm, rfl, fun entry mem => ?_⟩, inner named.1.2.2⟩, trivial⟩
    obtain ⟨given, member, made⟩ := exists_of_forall₂ (forall₂_of_mapM mapped) mem
    exact lettered_elementAttribute (named.1.2.1 given member) made
  | _ => exact ⟨trivial, trivial⟩

theorem analyze_eq_ok {code : String} {span : Template.Span} {value : Value} (made : analyze code span = .ok value) :
    analyze? code = some value := by
  unfold analyze at made
  cases looked : analyze? code with
  | none => simp [looked] at made
  | some => simpa [looked] using made

theorem NodesOf.length_eq_one {fragment : Bool} (nodes : NodesOf inSvg trees made)
    (listed : fragment = true ↔ (flatten trees).length ≠ 1 ∨ ∃ inner span, trees = [.fragment inner span])
    (alone : fragment = false) : made.length = 1 := by
  refine Decidable.of_not_not fun several => ?_
  rw [nodes.length_eq] at several
  exact Bool.false_ne_true (alone.symm.trans (listed.mpr (.inl several)))

theorem nodesOf_build {blueprint : Blueprint} (built : build trees = .ok blueprint) :
    NodesOf false trees blueprint.roots ∧ (blueprint.fragment = false → blueprint.roots.length = 1) := by
  obtain ⟨_, below, rest⟩ := bind_eq_ok built
  obtain rfl := ok.inj rest
  exact ⟨nodesOf_nodes below, (nodesOf_nodes below).length_eq_one (listed_iff trees)⟩

theorem built_build {trees : List Template.Tree} {blueprint : Blueprint} (template : Template.IsTemplate trees)
    (built : build trees = .ok blueprint) : BuiltAll false blueprint.roots :=
  (nodesOf_build built).1.built template.named

end Building

def paragraphTrees (code : String) (inner outer : Template.Span) : List Template.Tree :=
  [.element "p" [] [.expression code inner] false outer]

def paragraphBlueprint (code : String) (inner outer : Template.Span) : Blueprint :=
  ⟨false, [.element ⟨"p", false, false, 1, 0, outer, true⟩ [] [.expression ⟨code, none, true, none⟩ inner]]⟩

theorem build_paragraph {code : String} {inner outer : Template.Span} (looked : analyze? code = some ⟨code, none, true, none⟩) :
    Blueprint.build (paragraphTrees code inner outer) = .ok (paragraphBlueprint code inner outer) := by
  have ordinary : Markup.Element.isComponent "p" = false := by decide
  have html : Markup.Element.isSvgName "p" = false := by decide
  have full : Markup.Element.isVoid "p" = false := by decide
  have analyzed : analyze code inner = .ok ⟨code, none, true, none⟩ := by rw [analyze, looked]
  unfold Blueprint.build paragraphTrees
  simp only [Blueprint.nodes]
  unfold Blueprint.node
  simp only [Blueprint.nodes]
  unfold Blueprint.node
  simp [ordinary, html, full, analyzed, Blueprint.flatten, Blueprint.splice]
  rfl

end LiveMarkup.Blueprint
