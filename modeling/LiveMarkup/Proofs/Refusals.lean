import LiveMarkup.Proofs.Blueprints
import LiveMarkup.Proofs.Places
import LiveMarkup.Proofs.Styles

/-!
What a refused template shows. Every fault that is found in a template, while it is read, while its tree is made or while
its blueprint is built, is one of a construct that stands in its text, and its line and column are those of that construct.
-/

namespace LiveMarkup.Template
open Text List Option Position

/-- The construct in front of a text that a cause blames: an end tag, a start tag, an attribute or code in braces. Where
constructs were expected it is the character in their place, since none of them can be read there. -/
inductive Blames (text : List Char) : Cause → List Char → Prop
  | expected (constructs : List Construct) (c : Char) (fail : ∀ name ∈ constructs, name.Fails text) :
      Blames text (.expected constructs) [c]
  | mismatchedClose (tag found : String) : Blames text (.mismatchedClose tag found) ('<' :: '/' :: found.toList)
  | voidChildren (tag : String) : Blames text (.voidChildren tag) ('<' :: tag.toList)
  | expressionRequired (name : String) : Blames text (.expressionRequired name) name.toList
  | unknownNamespace (space name : String) (rest : List Char) (parts : name.toList = space.toList ++ ':' :: rest) :
      Blames text (.unknownNamespace space name) name.toList
  | child (raw : String) : Blames text (.invalidExpression (trimCode raw)) (braced raw)
  | attribute (name raw : String) (gap : List Char) (between : IsGap gap) :
      Blames text (.invalidExpression (trimCode raw)) (name.toList ++ gap ++ braced raw)

/-- The construct that the error blames stands in a text, and the error is located there. -/
def CompileError.Stands (source : List Char) (error : CompileError) : Prop :=
  ∃ k shown, Blames (source.drop k) error.cause shown ∧ shown <+: source.drop k ∧ error.IsAt (placeAt source k)

theorem Span.Opens.stands {source shown : List Char} {span : Span} {cause : Cause} (opens : span.Opens source shown)
    (blames : ∀ text, Blames text cause shown) : (CompileError.ofSpan cause span).Stands source := by
  obtain ⟨k, starts, there⟩ := opens
  exact ⟨k, shown, blames _, there, congrArg line starts, congrArg column starts⟩

variable {error : CompileError} {roots : List Tree}

section Settles

variable {α β : Type} {source : List Char} {good : α → Prop} {fine : β → Prop}

inductive Settles (source : List Char) (good : α → Prop) : Except CompileError α → Prop
  | ok {value : α} (holds : good value) : Settles source good (.ok value)
  | error {error : CompileError} (stands : error.Stands source) : Settles source good (.error error)

theorem Settles.bind {result : Except CompileError α} {next : α → Except CompileError β}
    (first : Settles source good result)
    (then_ : ∀ value, good value → Settles source fine (next value)) : Settles source fine (result >>= next) := by
  cases first with
  | ok holds => exact then_ _ holds
  | error stands => exact .error stands

theorem Settles.sound {value : α} (settled : Settles source good (.ok value)) : good value := by
  cases settled with
  | ok holds => exact holds

theorem Settles.faulty (settled : Settles source good (.error error)) : error.Stands source := by
  cases settled with
  | error stands => exact stands

theorem settles_mapM {f : α → Except CompileError β} {items : List α}
    (each : ∀ a ∈ items, Settles source (fun _ => True) (f a)) :
    Settles source (fun _ => True) (items.mapM f) := by
  induction items with
  | nil => exact .ok trivial
  | cons a _ ih =>
    rw [mapM_cons]
    refine (each a mem_cons_self).bind fun b _ => ?_
    exact (ih fun c mem => each c (mem_cons_of_mem a mem)).bind fun others _ => .ok trivial

end Settles

section Trees

def Attribute.Placed (source : List Char) : Attribute → Prop
  | .named name value span => span.Opens source name.toList ∧ ∀ code, value = some (.expression code) →
      ∃ raw gap, trimCode raw = code ∧ IsGap gap ∧ span.Opens source (name.toList ++ gap ++ braced raw)
  | .spread _ _ => True

mutual

def Tree.Placed (source : List Char) : Tree → Prop
  | .element tag attributes children _ span =>
    span.Opens source ('<' :: tag.toList) ∧ (∀ entry ∈ attributes, entry.Placed source) ∧ PlacedAll source children
  | .fragment children _ => PlacedAll source children
  | .text _ _ => True
  | .expression code span => ∃ raw, trimCode raw = code ∧ span.Opens source (braced raw)

def Tree.PlacedAll (source : List Char) : List Tree → Prop
  | [] => True
  | tree :: rest => tree.Placed source ∧ PlacedAll source rest

end

variable {source : List Char}

theorem Tree.placedAll_iff {trees : List Tree} : PlacedAll source trees ↔ ∀ tree ∈ trees, tree.Placed source := by
  induction trees with
  | nil => simp [PlacedAll]
  | cons _ _ ih => simp [PlacedAll, ih]

theorem placed_toAttribute {entry : WrittenAttribute} (placed : entry.Placed source) : entry.toAttribute.Placed source := by
  cases entry with
  | flag => exact ⟨placed, fun code none => by cases none⟩
  | quoted => exact ⟨placed, fun code other => by cases other⟩
  | spread => trivial
  | braced _ code =>
    obtain ⟨gap, between, k, starts, there⟩ := placed
    refine ⟨⟨k, starts, ?_⟩, fun other same => ?_⟩
    · rw [append_assoc] at there
      exact (prefix_append _ _).trans there
    · obtain rfl := AttributeValue.expression.inj (some.inj same)
      exact ⟨code, gap, rfl, between, k, starts, there⟩

theorem placed_attributes {attrs : List WrittenAttribute} (placed : ∀ entry ∈ attrs, entry.Placed source) :
    ∀ entry ∈ attrs.map WrittenAttribute.toAttribute, entry.Placed source := by
  simpa using fun entry mem => placed_toAttribute (placed entry mem)

mutual

theorem settles_toTree? {written : Written} (placed : written.Placed source) :
    Settles source (fun tree => ∀ root ∈ tree, root.Placed source) written.toTree? := by
  match written with
  | .text _ _ =>
    rw [Written.toTree?]
    refine .ok fun root found => ?_
    obtain ⟨_, _, rfl⟩ := map_eq_some_iff.mp found
    trivial
  | .expression code _ =>
    rw [Written.toTree?]
    refine .ok fun root found => ?_
    split at found
    · cases found
    · obtain rfl := some.inj found
      exact ⟨code, rfl, placed⟩
  | .fragment _ _ =>
    rw [Written.toTree?]
    refine (settles_toTrees placed).bind fun trees below => .ok fun root found => ?_
    obtain rfl := some.inj found
    exact below
  | .selfClosed _ _ _ =>
    rw [Written.toTree?]
    refine .ok fun root found => ?_
    obtain rfl := some.inj found
    exact ⟨placed.1, placed_attributes placed.2, trivial⟩
  | .element tag _ _ close _ _ =>
    rw [Written.toTree?]
    obtain ⟨opens, entries, inner, closes⟩ := placed
    refine (settles_toTrees inner).bind fun trees below => ?_
    split
    · refine .ok fun root found => ?_
      obtain rfl := some.inj found
      exact ⟨opens, placed_attributes entries, below⟩
    · exact .error (closes.stands fun _ => .mismatchedClose tag close)

theorem settles_toTrees {written : List Written} (placed : Written.PlacedAll source written) :
    Settles source (Tree.PlacedAll source) (toTrees written) := by
  match written with
  | [] =>
    rw [toTrees]
    exact .ok trivial
  | first :: rest =>
    rw [toTrees]
    refine (settles_toTree? placed.1).bind fun tree one => (settles_toTrees placed.2).bind fun others two => .ok ?_
    rw [Tree.placedAll_iff] at two ⊢
    intro root mem
    rcases mem_append.mp mem with first | other
    · exact one root (by simpa using first)
    · exact two root other

end

theorem placed_mapText {tree : Tree} (placed : tree.Placed source) (f : String → String) :
    (tree.mapText f).Placed source := by
  cases tree <;> exact placed

theorem placedAll_trimRoots (placed : Tree.PlacedAll source roots) : Tree.PlacedAll source (trimRoots roots) := by
  rw [Tree.placedAll_iff] at placed ⊢
  have kept : ∀ tree ∈ roots.filter (!·.isBlankText), tree.Placed source := fun tree mem =>
    placed tree (mem_filter.mp mem).1
  unfold trimRoots
  split
  · intro tree mem
    cases mem
  · rename_i first rest found
    rw [found, forall_mem_cons] at kept
    have keeps : ∀ tree : Tree, tree.Placed source → (tree.mapText trimmedEnd).Placed source := fun _ placed =>
      placed_mapText placed _
    exact forall_mapLast keeps (forall_mem_cons.mpr ⟨placed_mapText kept.1 _, kept.2⟩)

end Trees

section Blocks

theorem drop_ne_nil_of_offset_lt {source : String} {k : Nat} (before : (placeAt source.toList k).offset < source.utf8ByteSize) :
    source.toList.drop k ≠ [] := by
  intro done
  have whole : source.toList.take k = source.toList := by
    rw [drop_eq_nil_iff] at done
    exact take_of_length_le done
  have size : source.utf8ByteSize = String.utf8Len source.toList := by
    rw [← String.utf8ByteSize_ofList, String.ofList_toList]
  rw [placeAt, offset_pastAll, whole, size] at before
  simp at before

variable {source : String}

theorem settles_parseBlock (source : String) : parseBlock source = .error ⟨.unclosedBlock "", 1, 1⟩ ∨
    Settles source.toList (fun read => Tree.PlacedAll source.toList read.1) (parseBlock source) := by
  have start : cursorAt source.toList 0 = .ofText source := rfl
  obtain ⟨mem, gives⟩ := reads_viewBlock {} (⟨0, rfl, forall_mem_nil _⟩ : Attempts.In source.toList {})
  rw [start] at mem gives
  unfold parseBlock Parser.parse
  rcases ran : Grammar.viewBlock (.ofText source) {} with ⟨_ | ⟨written, cursor⟩, attempts⟩
  · rw [ran] at mem
    obtain ⟨k, there, fail⟩ := mem
    dsimp only
    split
    · exact .inl rfl
    · rename_i before
      rw [there, Nat.not_le] at before
      obtain ⟨c, rest, here⟩ := exists_cons_of_ne_nil (drop_ne_nil_of_offset_lt before)
      have starts : [c] <+: source.toList.drop k := ⟨rest, here.symm⟩
      exact .inr (.error ⟨k, [c], .expected _ c fail, starts, congrArg line there, congrArg column there⟩)
  · rw [ran] at gives
    obtain ⟨_, _, placed⟩ := gives written cursor rfl
    exact .inr ((settles_toTrees placed).bind fun trees below => .ok (placedAll_trimRoots below))

theorem placedAll_parseBlock {bytes : Nat} (read : parseBlock source = .ok (roots, bytes)) :
    Tree.PlacedAll source.toList roots := by
  rcases settles_parseBlock source with open_ | settled
  · rw [open_] at read
    cases read
  · rw [read] at settled
    exact settled.sound

theorem stands_parseBlock (failed : parseBlock source = .error error)
    (closed : ∀ keyword, error.cause ≠ .unclosedBlock keyword) : error.Stands source.toList := by
  rcases settles_parseBlock source with open_ | settled
  · obtain rfl := Except.error.inj (open_.symm.trans failed)
    exact absurd rfl (closed "")
  · rw [failed] at settled
    exact settled.faulty

end Blocks

end LiveMarkup.Template

namespace LiveMarkup.Blueprint
open Template Text

variable {source : List Char} {shown : List Char} {code : String} {span : Span}

theorem settles_analyze (opens : span.Opens source shown) (blames : ∀ text, Blames text (.invalidExpression code) shown) :
    Settles source (fun _ => True) (analyze code span) := by
  unfold analyze
  split
  · exact .ok trivial
  · exact .error (opens.stands blames)

theorem settles_analyzeHandler (opens : span.Opens source shown)
    (blames : ∀ text, Blames text (.invalidExpression code) shown) :
    Settles source (fun _ => True) (analyzeHandler code span) := by
  unfold analyzeHandler
  split
  · exact .ok trivial
  · exact .error (opens.stands blames)

section Attributes

variable {name : String} {value : Option Template.AttributeValue} {span : Span} {given : Template.Attribute}

theorem settles_attributeValue (placed : (Template.Attribute.named name value span).Placed source) :
    Settles source (fun _ => True) (attributeValue value span) := by
  unfold attributeValue
  split
  · exact .ok trivial
  · exact .ok trivial
  · rename_i code
    obtain ⟨raw, gap, rfl, between, opens⟩ := placed.2 code rfl
    exact settles_analyze opens fun _ => .attribute name raw gap between

theorem splitName_eq {name space rest : String} (split : splitName name = (some space, rest)) :
    name.toList = space.toList ++ ':' :: rest.toList := by
  unfold splitName at split
  split at split
  · rename_i before behind found
    obtain ⟨same, rfl⟩ := Prod.mk.inj split
    obtain rfl := Option.some.inj same
    simpa using (splitOnce_eq found).1
  · cases (Prod.mk.inj split).1

theorem settles_elementAttribute (placed : given.Placed source) : Settles source (fun _ => True) (elementAttribute given) := by
  cases given with
  | spread => exact .ok trivial
  | named name value span =>
    have valued : ∀ {kind : AttributeKind} {short : String}, Settles source (fun _ => True)
        (do return .value kind short (← attributeValue value span) span : Except _ Attribute) := fun {kind short} =>
      (settles_attributeValue placed).bind fun _ _ => .ok trivial
    have required : Settles source (fun _ : Attribute => True) (.error (.ofSpan (.expressionRequired name) span)) :=
      .error (placed.1.stands fun _ => .expressionRequired name)
    have handled : ∀ {code short : String} {capture : Bool}, value = some (.expression code) → Settles source (fun _ => True)
        (do return .event short (← analyzeHandler code span) capture span : Except _ Attribute) := by
      intro code short capture given
      obtain ⟨raw, gap, rfl, between, opens⟩ := placed.2 code given
      exact (settles_analyzeHandler opens fun _ => .attribute name raw gap between).bind fun _ _ => .ok trivial
    simp only [elementAttribute]
    split
    · split
      · exact .ok trivial
      · exact required
    · cases split : splitName name with
      | mk =>
        dsimp only
        split
        · exact valued
        · exact valued
        · exact valued
        · exact valued
        · exact valued
        · exact valued
        · exact valued
        · exact valued
        · exact valued
        · split
          · exact handled rfl
          · exact required
        · split
          · exact handled rfl
          · exact required
        · exact .ok trivial
        · exact .error (placed.1.stands fun _ => .unknownNamespace _ name _ (splitName_eq split))

theorem settles_componentAttribute (placed : given.Placed source) :
    Settles source (fun _ => True) (componentAttribute given) := by
  cases given with
  | spread => exact .ok trivial
  | named => exact (settles_attributeValue placed).bind fun _ _ => .ok trivial

end Attributes

theorem placedAll_flatten {trees : List Template.Tree} (placed : Tree.PlacedAll source trees) :
    Tree.PlacedAll source (flatten trees) := by
  match trees with
  | [] => trivial
  | .fragment _ _ :: _ =>
    rw [Tree.placedAll_iff]
    intro tree mem
    rcases List.mem_append.mp mem with below | behind
    · exact Tree.placedAll_iff.mp (placedAll_flatten placed.1) tree below
    · exact Tree.placedAll_iff.mp (placedAll_flatten placed.2) tree behind
  | .text .. :: _ | .expression .. :: _ | .element .. :: _ => exact ⟨placed.1, placedAll_flatten placed.2⟩

mutual

theorem settles_node {inSvg : Bool} {tree : Template.Tree} (placed : tree.Placed source) :
    Settles source (fun _ => True) (node inSvg tree) := by
  match tree with
  | .text _ _ =>
    rw [node]
    exact .ok trivial
  | .expression _ _ =>
    rw [node]
    obtain ⟨raw, rfl, opens⟩ := placed
    exact (settles_analyze opens fun _ => .child raw).bind fun _ _ => .ok trivial
  | .fragment _ _ =>
    rw [node]
    exact settles_nodes placed
  | .element tag attrs children _ span =>
    obtain ⟨opens, entries, inner⟩ := placed
    unfold node
    dsimp only
    split
    · -- whatever a component is given to show
      have shown : ∀ {component : Component} (slot : Except _ Slot), Settles source (fun _ => True) slot →
          Settles source (fun _ => True) (do
            let slot ← slot
            let attrs ← attrs.mapM componentAttribute
            return [Node.component component attrs slot]) := by
        intro component slot settled
        refine settled.bind fun _ _ => Settles.bind (settles_mapM fun entry mem => ?_) fun _ _ => .ok trivial
        exact settles_componentAttribute (entries entry mem)
      split
      · exact shown (.ok .none) (.ok trivial)
      · exact shown (.ok (.text _)) (.ok trivial)
      · rename_i code span flat
        have below : Tree.PlacedAll source (flatten children) := placedAll_flatten inner
        rw [flat] at below
        obtain ⟨raw, rfl, there⟩ := below.1
        refine (settles_analyze there fun _ => .child raw).bind fun value _ => ?_
        split
        · exact shown (.ok (.text _)) (.ok trivial)
        · exact shown (.ok (.expression _)) (.ok trivial)
      · refine (settles_nodes inner).bind fun roots _ => ?_
        exact shown (.ok (.nested _ roots)) (.ok trivial)
    · split
      · exact .error (opens.stands fun _ => .voidChildren tag)
      · refine Settles.bind (settles_mapM fun entry mem => settles_elementAttribute (entries entry mem)) fun _ _ => ?_
        exact (settles_nodes inner).bind fun _ _ => .ok trivial

theorem settles_nodes {inSvg : Bool} {trees : List Template.Tree} (placed : Tree.PlacedAll source trees) :
    Settles source (fun _ => True) (nodes inSvg trees) := by
  match trees with
  | [] =>
    rw [nodes]
    exact .ok trivial
  | tree :: rest =>
    rw [nodes]
    exact (settles_node placed.1).bind fun _ _ => (settles_nodes placed.2).bind fun _ _ => .ok trivial

end

theorem settles_build {roots : List Template.Tree} (placed : Tree.PlacedAll source roots) :
    Settles source (fun _ => True) (build roots) := (settles_nodes placed).bind fun _ _ => .ok trivial

end LiveMarkup.Blueprint
