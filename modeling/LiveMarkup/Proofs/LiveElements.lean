import LiveMarkup.Proofs.Linearization
import LiveMarkup.Proofs.Refusals
import LiveMarkup.Proofs.TemplatePaths

/-!
Which elements need a live reference and what a client's program declares. An element is marked exactly when one of its
attributes, or a child of its own that is a component or changes, asks for it; and the program of a root has one reference
for the root, one for each other element that is marked and one for each marker of a child that changes, and no others.
-/

namespace LiveMarkup.Blueprint
open List hiding beq_eq_decide isEmpty_iff
open Template (Span bind_eq_ok)

def isChanging (code : String) : Bool := (Expression.parse? code).any fun e => (constantOf e).isNone

/-- What the names of attributes begin with that are not set to a value in the markup. -/
def liveSpaces : List String := ["on", "capture", "use", "prop"]

/-- Whether the value of an attribute, as it is written, is only known when it runs. -/
def isChangingValue : Option Template.AttributeValue → Bool
  | some (.expression code) => isChanging code
  | _ => false

/-- Whether an attribute, as it is written, needs the live element. -/
def asksForElement : Template.Attribute → Bool
  | .spread _ _ => true
  | .named name value _ =>
    name == "ref" || liveSpaces.any (fun space => (space ++ ":").toList.isPrefixOf name.toList) || isChangingValue value

/-- Whether a child, as it is written, needs the live element that it stands in. -/
def asksForParent : Template.Tree → Bool
  | .expression code _ => isChanging code
  | .element tag _ _ _ _ => Markup.Element.isComponent tag
  | _ => false

variable {code : String} {value : Value} {span : Span} {entries : List Attribute} {slot : Slot}
  {trees : List Template.Tree}

theorem dynamic_of_analyze? (looked : analyze? code = some value) : value.dynamic = isChanging code := by
  obtain ⟨e, parsed, rfl⟩ := Option.map_eq_some_iff.mp looked
  unfold isChanging Value.dynamic
  rw [parsed, Option.any_some]
  cases constantOf e <;> rfl

theorem dynamic_of_analyze (looked : analyze code span = .ok value) : value.dynamic = isChanging code := by
  unfold analyze at looked
  split at looked
  · rename_i found
    obtain rfl := Except.ok.inj looked
    exact dynamic_of_analyze? found
  · cases looked

theorem dynamic_attributeValue {value : Option Template.AttributeValue} {given : Value}
    (looked : attributeValue value span = .ok given) : given.dynamic = isChangingValue value := by
  match value with
  | none =>
    obtain rfl := Except.ok.inj looked
    rfl
  | some (.literal text) =>
    obtain rfl := Except.ok.inj looked
    rfl
  | some (.expression code) => exact dynamic_of_analyze looked

theorem isPrefixOf_iff_splitName {space : String} (plain : ':' ∉ space.toList) (name : String) :
    (space ++ ":").toList.isPrefixOf name.toList = ((splitName name).1 == some space) := by
  rw [Bool.eq_iff_iff, isPrefixOf_iff_prefix, beq_iff_eq, splitName]
  constructor
  · rintro ⟨rest, whole⟩
    have cut : name.toList = space.toList ++ ':' :: rest := by simp [← whole]
    rw [cut, Markup.Style.splitOnce_append plain]
    simp
  · intro same
    split at same
    · rename_i before after found
      obtain rfl := Option.some.inj same
      exact ⟨after, by simp [(Text.splitOnce_eq found).1]⟩
    · cases same

theorem any_liveSpaces (name : String) : (liveSpaces.any fun space => (space ++ ":").toList.isPrefixOf name.toList) =
      (splitName name).1.any (liveSpaces.contains ·) := by
  have plain : ∀ space ∈ liveSpaces, ':' ∉ space.toList := by decide
  have each : (liveSpaces.any fun space => (space ++ ":").toList.isPrefixOf name.toList) =
      liveSpaces.any fun space => (splitName name).1 == some space := by
    rw [Bool.eq_iff_iff, any_eq_true, any_eq_true]
    refine exists_congr fun space => and_congr_right fun mem => ?_
    rw [isPrefixOf_iff_splitName (plain space mem)]
  rw [each]
  cases (splitName name).1 with
  | none => simp
  | some space => simp [liveSpaces, beq_eq_decide]

theorem dynamic_elementAttribute {given : Template.Attribute} {entry : Attribute}
    (built : elementAttribute given = .ok entry) : entry.dynamic = asksForElement given := by
  cases classifiedAs_of_elementAttribute built with
  | spread code span => rfl
  | reference code span => simp [Attribute.dynamic, asksForElement]
  | @value name _ _ _ kind _ other space _ looked =>
    have spaces : ∀ entry ∈ spaceKinds, entry.1.any (liveSpaces.contains ·) = (entry.2 == .property) := by decide
    rw [asksForElement, any_liveSpaces, beq_eq_false_iff_ne.mpr other, spaces _ space, Attribute.dynamic,
      dynamic_attributeValue looked]
    rfl
  | @event name _ _ capture _ other space _ =>
    rw [asksForElement, any_liveSpaces, beq_eq_false_iff_ne.mpr other, space]
    cases capture <;> rfl
  | directive other space =>
    rw [asksForElement, any_liveSpaces, beq_eq_false_iff_ne.mpr other, space]
    rfl

theorem any_dynamic_elementAttributes {attrs : List Template.Attribute}
    (mapped : attrs.mapM elementAttribute = .ok entries) :
    entries.any Attribute.dynamic = attrs.any asksForElement := by
  induction attrs generalizing entries with
  | nil =>
    obtain rfl := Except.ok.inj mapped
    rfl
  | cons given attrs ih =>
    rw [mapM_cons] at mapped
    obtain ⟨_, here, mapped⟩ := bind_eq_ok mapped
    obtain ⟨_, later, mapped⟩ := bind_eq_ok mapped
    obtain rfl := Except.ok.inj mapped
    rw [any_cons, any_cons, dynamic_elementAttribute here, ih later]

/-- An element that is no component, and whether it is marked to need a live reference. -/
structure Mark where
  tag : String
  span : Span
  live : Bool
  deriving Repr, BEq, DecidableEq

mutual

/-- The marks of a template's elements in document order: each as its own attributes and its own children ask for it.
Children of fragments are children of the element around. -/
def writtenMarks : Template.Tree → List Mark
  | .text _ _ => []
  | .expression _ _ => []
  | .fragment children _ => writtenMarksAll children
  | .element tag attributes children _ span =>
    (if Markup.Element.isComponent tag then []
      else [⟨tag, span, attributes.any asksForElement || (flatten children).any asksForParent⟩]) ++ writtenMarksAll children

def writtenMarksAll : List Template.Tree → List Mark
  | [] => []
  | tree :: rest => writtenMarks tree ++ writtenMarksAll rest

end

mutual

/-- The marks of the elements of a blueprint in document order, those that components are given to show among them. -/
def marksOf : Node → List Mark
  | .text _ => []
  | .expression _ _ => []
  | .element element _ children => ⟨element.tag, element.span, element.dynamic⟩ :: marksAll children
  | .component _ _ slot => slotMarks slot

def slotMarks : Slot → List Mark
  | .nested _ roots => marksAll roots
  | .none => []
  | .text _ => []
  | .expression _ => []

def marksAll : List Node → List Mark
  | [] => []
  | node :: rest => marksOf node ++ marksAll rest

end

theorem marksAll_append (first second : List Node) : marksAll (first ++ second) = marksAll first ++ marksAll second := by
  induction first with
  | nil => rfl
  | cons node first ih => rw [cons_append, marksAll, marksAll, ih, append_assoc]

theorem writtenMarksAll_append (first second : List Template.Tree) :
    writtenMarksAll (first ++ second) = writtenMarksAll first ++ writtenMarksAll second := by
  induction first with
  | nil => rfl
  | cons tree first ih => rw [cons_append, writtenMarksAll, writtenMarksAll, ih, append_assoc]

theorem writtenMarksAll_flatten (trees : List Template.Tree) : writtenMarksAll (flatten trees) = writtenMarksAll trees := by
  refine read_flatten writtenMarksAll_append (fun children span => ?_) trees
  rw [writtenMarksAll, writtenMarks, writtenMarksAll, append_nil]

/-- What is made of trees says of itself what is written: the marks in it, and whether the parent is needed live. -/
structure Follows (trees : List Template.Tree) (made : List Node) : Prop where
  marks_eq : marksAll made = writtenMarksAll trees
  dynamic_eq : made.any Node.dynamic = (flatten trees).any asksForParent
  fitting : FittingAll made

theorem Follows.append {tree : Template.Tree} {rest : List Template.Tree} {first others : List Node}
    (one : Follows [tree] first) (two : Follows rest others) : Follows (tree :: rest) (first ++ others) where
  marks_eq := by
    rw [marksAll_append, one.marks_eq, two.marks_eq, ← writtenMarksAll_append, singleton_append]
  dynamic_eq := by rw [any_append, one.dynamic_eq, two.dynamic_eq, ← any_append, ← flatten_eq_append]
  fitting := fittingAll_append one.fitting two.fitting

theorem PlainSlot.marks {children : List Template.Tree} (plain : PlainSlot children slot) :
    slotMarks slot = writtenMarksAll children := by
  rw [← writtenMarksAll_flatten]
  cases plain with
  | none flat => rw [flat]; rfl
  | text flat => rw [flat]; rfl
  | constant flat _ _ => rw [flat]; rfl
  | expression flat _ _ => rw [flat]; rfl

theorem follows_component {tag : String} {attrs : List Template.Attribute} {children : List Template.Tree}
    {closed : Bool} (component : Markup.Element.isComponent tag = true)
    {head : Component} (same : slotMarks slot = writtenMarksAll children) :
    Follows [.element tag attrs children closed span] [.component head entries slot] where
  marks_eq := by simp [marksAll, marksOf, same, writtenMarksAll, writtenMarks, component]
  dynamic_eq := by simp [flatten, splice, Node.dynamic, asksForParent, component]
  fitting := ⟨trivial, trivial⟩

theorem NodesOf.follows {inSvg : Bool} {made : List Node} (nodes : NodesOf inSvg trees made) : Follows trees made := by
  induction nodes with
  | nil => exact ⟨rfl, by simp [flatten], trivial⟩
  | cons _ _ one behind => exact one.append behind
  | text data span => exact ⟨rfl, by simp [flatten, splice, Node.dynamic, asksForParent], trivial, trivial⟩
  | expression looked =>
    exact ⟨rfl, by simp [flatten, splice, Node.dynamic, asksForParent, dynamic_of_analyze looked], trivial, trivial⟩
  | fragment _ inner =>
    refine ⟨?_, ?_, inner.fitting⟩
    · rw [inner.marks_eq, writtenMarksAll, writtenMarksAll, writtenMarks, append_nil]
    · rw [inner.dynamic_eq, flatten, splice, flatten, append_nil]
  | element ordinary _ _ _ mapped below inner =>
    refine ⟨?_, by simp [flatten, splice, Node.dynamic, asksForParent, ordinary], ⟨below.length_eq.symm, rfl, inner.fitting⟩, trivial⟩
    simp [marksAll, marksOf, inner.marks_eq, writtenMarksAll, writtenMarks, ordinary, inner.dynamic_eq,
      any_dynamic_elementAttributes mapped]
  | component component shown _ => exact follows_component component shown.marks
  | wrapper component _ _ _ inner => exact follows_component component inner.marks_eq

theorem follows_build {blueprint : Blueprint} (built : build trees = .ok blueprint) :
    Follows trees blueprint.roots := by
  obtain ⟨_, made, rest⟩ := bind_eq_ok built
  obtain rfl := Except.ok.inj rest
  exact (nodesOf_nodes made).follows

end LiveMarkup.Blueprint

namespace LiveMarkup.Codegen
open Blueprint Markup
open List hiding beq_eq_decide isEmpty_iff

def isCalled (node : Node) : Bool := node.dynamic || (marksOf node).any Mark.live

theorem any_isCalled (nodes : List Node) :
    nodes.any isCalled = (nodes.any Node.dynamic || (marksAll nodes).any Mark.live) := by
  induction nodes with
  | nil => rfl
  | cons node nodes ih =>
    rw [any_cons, any_cons, ih, marksAll, any_append, isCalled]
    simp only [Bool.or_assoc, Bool.or_left_comm]

theorem isCalled_element {element : Blueprint.Element} {attrs : List Attribute} {children : List Node}
    (fitting : Fitting (.element element attrs children)) :
    isCalled (.element element attrs children) = (attrs.any Attribute.dynamic || children.any isCalled) := by
  rw [any_isCalled, ← Bool.or_assoc, ← fitting.2.1, isCalled, marksOf, any_cons]
  rfl

theorem isCalled_of_staticText {node : Node} {text : String} (static : staticText? node = some text) :
    isCalled node = false := by
  cases node with
  | text _ => rfl
  | expression given _ =>
    cases dynamic : given.dynamic with
    | true => simp [staticText?, dynamic] at static
    | false => simp [isCalled, Node.dynamic, dynamic, marksOf]
  | element _ _ _ => cases static
  | component _ _ _ => cases static

theorem calls_eq_nil_iff {element : Blueprint.Element} {attrs : List Attribute} {children : List Node}
    (fitting : Fitting (.element element attrs children)) {address : Address}
    (inner : ∀ index run, targets (sitesBelow address index run children) = [] ↔ children.any isCalled = false) :
    replicate (callsOn attrs children) address ++ targets (innerSites address children) = [] ↔
      isCalled (.element element attrs children) = false := by
  have own : replicate (attrs.countP Attribute.dynamic) address = [] ↔ attrs.any Attribute.dynamic = false := by
    simp [countP_eq_zero]
  rw [isCalled_element fitting, callsOn, ← replicate_append_replicate, append_assoc, append_eq_nil_iff, own,
    Bool.or_eq_false_iff]
  refine and_congr_right' ?_
  cases sole : isSole children with
  | false => simp [innerSites, sole, inner]
  | true =>
    cases children with
    | nil => cases sole
    | cons node rest =>
      cases rest with
      | nil => simp [isCalled, show node.dynamic = true from sole]
      | cons _ _ => cases sole

mutual

theorem needs_eq_nil {node : Node} (fitting : Fitting node) (quiet : isCalled node = false) (address : Address) :
    needs address node = [] := by
  match node with
  | .text _ => rfl
  | .expression given span =>
    have still : given.dynamic = false := (Bool.or_eq_false_iff.mp quiet).1
    rw [needs, still]
    rfl
  | .component _ _ _ => cases quiet
  | .element element attrs children =>
    obtain ⟨entries, inner⟩ := Bool.or_eq_false_iff.mp ((isCalled_element fitting).symm.trans quiet)
    have still : element.dynamic = false := by
      rw [any_isCalled, Bool.or_eq_false_iff] at inner
      rw [fitting.2.1, entries, inner.1]
      rfl
    rw [needs, still, needsBelow_eq_nil fitting.2.2 inner]
    simp

theorem needsBelow_eq_nil {nodes : List Node} (fitting : FittingAll nodes) (quiet : nodes.any isCalled = false)
    (parent : Address) (index : Nat) (run : String) : needsBelow parent index run nodes = [] := by
  match nodes with
  | [] => rfl
  | node :: rest =>
    obtain ⟨here, later⟩ := Bool.or_eq_false_iff.mp ((any_cons).symm.trans quiet)
    rw [needsBelow]
    split
    · exact needsBelow_eq_nil fitting.2 later parent index _
    · rw [needs_eq_nil fitting.1 here, needsBelow_eq_nil fitting.2 later]
      rfl

end

mutual

theorem targets_sites {node : Node} (fitting : Fitting node) (apart : staticText? node = none) (address : Address) :
    targets (sites address node) = [] ↔ isCalled node = false := by
  match node with
  | .text _ => cases apart
  | .expression given _ =>
    cases dynamic : given.dynamic with
    | false => simp [staticText?, dynamic] at apart
    | true => simp [sites, targets, isCalled, Node.dynamic, dynamic]
  | .component _ _ _ => simp [sites, targets, isCalled, Node.dynamic]
  | .element element attrs children =>
    rw [sites, ← calls_eq_nil_iff fitting (fun index run => targets_sitesBelow fitting.2.2 address index run)]
    cases dynamic : element.dynamic with
    | false => simp [targets, innerSites, callsOn_eq_zero fitting dynamic]
    | true => simp [targets, innerSites]

theorem targets_sitesBelow {nodes : List Node} (fitting : FittingAll nodes) (parent : Address) (index : Nat) (run : String) :
    targets (sitesBelow parent index run nodes) = [] ↔ nodes.any isCalled = false := by
  match nodes with
  | [] => simp [sitesBelow, targets]
  | node :: rest =>
    rw [sitesBelow, any_cons]
    cases static : staticText? node with
    | some text =>
      rw [isCalled_of_staticText static, Bool.false_or]
      exact targets_sitesBelow fitting.2 parent index _
    | none =>
      dsimp only
      rw [targets_append, append_eq_nil_iff, targets_sites fitting.1 static, targets_sitesBelow fitting.2,
        Bool.or_eq_false_iff]

end

section Roots

theorem Chart.names {located final : List (Address × String)} {walks : List Walk} (chart : Chart located walks final)
    (apart : (located.map Prod.snd).Nodup) :
    final.map Prod.snd = located.map Prod.snd ++ walks.map Walk.declared ∧ (final.map Prod.snd).Nodup := by
  induction chart with
  | nil => exact ⟨by simp, apart⟩
  | cons known leads fresh _ ih =>
    obtain ⟨same, once⟩ := ih (nodup_concat apart fresh)
    exact ⟨by simp [same], once⟩

/-- A program has a reference to all that is needed, and to nothing else: each to another node, and each declared once, under
a name of its own. -/
structure MeetsNeeds (program : ClientProgram) (needed : List Need) : Prop where
  met : Forall₂ Need.IsMet needed program.located
  once : (program.located.map Prod.fst).Nodup
  declared : program.located.map Prod.snd = ClientProgram.rootName :: program.walks.map Walk.declared
  apart : (program.located.map Prod.snd).Nodup

variable {element : Blueprint.Element} {attrs : List Attribute} {children : List Node}

theorem meets_rootProgram (fitting : Fitting (.element element attrs children)) (context : Context) :
    MeetsNeeds (rootProgram element attrs children context).1 (.element [] :: innerNeeds [] children) := by
  obtain ⟨_, gained, _⟩ := gained_rootProgram fitting context
  obtain ⟨_, same, met⟩ := gained.located
  obtain ⟨names, apart⟩ := (gained.charted charted_start).chart.names (by simp)
  refine ⟨?_, gained.once (by simp [ClientProgram.start]), names, apart⟩
  rw [same]
  exact .cons ⟨rfl, 1, rfl⟩ met

theorem MeetsNeeds.walks_eq_nil {program : ClientProgram} {need : Need} {needed : List Need}
    (meets : MeetsNeeds program (need :: needed)) : program.walks = [] ↔ needed = [] := by
  have count := congrArg length meets.declared
  have pairs := meets.met.length_eq
  rw [length_map, length_cons, length_map] at count
  rw [length_cons] at pairs
  rw [← length_eq_zero_iff, ← length_eq_zero_iff]
  omega

theorem statements_eq_nil_iff (fitting : Fitting (.element element attrs children)) (context : Context) :
    (rootProgram element attrs children context).1.statements = [] ↔
      ∀ mark ∈ marksOf (.element element attrs children), mark.live = false := by
  obtain ⟨_, gained, _⟩ := gained_rootProgram fitting context
  obtain ⟨statements, made, calls⟩ := gained.statements
  have made : (rootProgram element attrs children context).1.statements = statements := made
  have same : isCalled (.element element attrs children) = (marksOf (.element element attrs children)).any Mark.live :=
    Bool.false_or _
  have count := calls.length_eq
  rw [made, ← length_eq_zero_iff, count, length_eq_zero_iff,
    calls_eq_nil_iff fitting (targets_sitesBelow fitting.2.2 []), same]
  simp

theorem render_bare_iff (program : ClientProgram) (svgRoot : Bool) (context : Context) :
    (∃ template, (program.render svgRoot context).1 = template ++ ".with(__clone)") ↔
      program.walks = [] ∧ program.statements = [] := by
  rw [← List.isEmpty_iff, ← List.isEmpty_iff, ← Bool.and_eq_true]
  cases bare : program.walks.isEmpty && program.statements.isEmpty with
  | true =>
    have alone : ∃ template, (program.render svgRoot context).1 = template ++ ".with(" ++ "__clone" ++ ")" := by
      unfold ClientProgram.render
      rw [bare]
      exact ⟨_, rfl⟩
    obtain ⟨template, same⟩ := alone
    exact iff_of_true ⟨template, by rw [same, String.append_assoc, String.append_assoc]; rfl⟩ rfl
  | false =>
    have block : ∃ body, (program.render svgRoot context).1 = body ++ "\n\x7d" := by
      unfold ClientProgram.render
      rw [bare]
      exact ⟨_, rfl⟩
    obtain ⟨_, same⟩ := block
    refine iff_of_false ?_ nofun
    rintro ⟨_, equal⟩
    have last := congrArg (fun code => code.toList.getLast?) (same.symm.trans equal)
    simp at last

/-- Live references are where they are needed. An element is marked exactly when one of its attributes, as written, is a
spread, a reference, an event, a directive, a property or set to an expression that is no constant, or when a child of
its own, which fragments do not hide, is a component or such an expression; this is so in document order, also in what
components are given to show. The code of a root is that of its program. It has one reference for the root and, in
document order, one for each other marked element and for the marker of each child that changes and is not the only one,
and no others, no two to one node or of one name. It is that of a bare clone exactly when no element in it is marked. -/
theorem references_where_needed {trees : List Template.Tree} {blueprint : Blueprint} (built : build trees = .ok blueprint) :
    marksAll blueprint.roots = writtenMarksAll trees ∧
      ∀ element attributes children, .element element attributes children ∈ blueprint.roots → ∀ context,
        let root := Node.element element attributes children
        let program := (rootProgram element attributes children context).1
        clientRoot root context =
            program.render (element.isSvg && element.tag != "svg") (rootProgram element attributes children context).2 ∧
          MeetsNeeds program (.element [] :: innerNeeds [] children) ∧
          ((∃ template, (clientRoot root context).1 = template ++ ".with(__clone)") ↔
            innerNeeds [] children = [] ∧ program.statements = []) ∧
          (innerNeeds [] children = [] ∧ program.statements = [] ↔ ∀ mark ∈ marksOf root, mark.live = false) := by
  have follows := follows_build built
  refine ⟨follows.marks_eq, fun element attributes children inside context => ?_⟩
  intro root program
  have fitting : Fitting root := mem_fittingAll follows.fitting inside
  have meets := meets_rootProgram fitting context
  have code : clientRoot root context =
      program.render (element.isSvg && element.tag != "svg") (rootProgram element attributes children context).2 := by
    rw [clientRoot_element]
    rfl
  refine ⟨code, meets, ?_, ?_⟩
  · rw [code, render_bare_iff, meets.walks_eq_nil]
  · rw [statements_eq_nil_iff fitting context, and_iff_right_iff_imp]
    intro still
    have quiet : isCalled root = false := by
      rw [show isCalled root = (marksOf root).any Mark.live from Bool.false_or _]
      simpa using still
    obtain ⟨_, inner⟩ := Bool.or_eq_false_iff.mp ((isCalled_element fitting).symm.trans quiet)
    rw [innerNeeds, needsBelow_eq_nil fitting.2.2 inner]
    simp

/-- A paragraph with a text, an element and a value has a reference to itself and one to the marker of the value. -/
theorem references_where_needed_greeting : build greeting = .ok ⟨false, [.element greetingElement [] greetingChildren]⟩ ∧
    marksAll [.element greetingElement [] greetingChildren] = writtenMarksAll greeting ∧
    MeetsNeeds (rootProgram greetingElement [] greetingChildren ⟨.client, "rt", {}, []⟩).1 [.element [], .marker [2]] := by
  obtain ⟨marked, each⟩ := references_where_needed build_greeting
  exact ⟨build_greeting, marked, (each _ _ _ mem_cons_self _).2.1⟩

end Roots

end LiveMarkup.Codegen
