import LiveMarkup.Codegen.Attributes
import LiveMarkup.Live.Claim
import LiveMarkup.Proofs.Blueprints
import LiveMarkup.Proofs.Reading

/-!
The tree that the markup of an element's template stands for: elements with what is known of their attributes, texts
that are joined where they meet, and a marker for each child that is only known when it runs. What is written of such a
tree is read back, if the texts begin in ASCII and the elements are neither raw nor misplaced.
-/

namespace LiveMarkup.Codegen
open Blueprint Markup Text List StaticAttributes Element

def staticText? : Node → Option String
  | .text data => some data
  | .expression given _ => if given.dynamic then none else some given.shown
  | .element _ _ _ => none
  | .component _ _ _ => none

/-- The texts of children that meet, from `run` on: one before each child that is no such text, and one at the end. -/
def runs (run : String) : List Node → List String
  | [] => [run]
  | node :: rest =>
    match staticText? node with
    | some text => runs (run ++ text) rest
    | none => run :: runs "" rest

def textTrees (run : String) : List Tree := if run = "" then [] else [.text run]

/-- Whether the only child is known when it runs, and has no need of a marker. -/
def isSole : List Node → Bool
  | [node] => node.dynamic
  | _ => false

mutual

def skeleton : Node → Tree
  | .element element attributes children =>
    .element element.tag element.isSvg (StaticAttributes.ofAttributes attributes).merged
      (if isSole children then [] else skeletons "" children)
  | .text _ => .comment Live.regionStart
  | .expression _ _ => .comment Live.regionStart
  | .component _ _ _ => .comment Live.regionStart

def skeletons (run : String) : List Node → List Tree
  | [] => textTrees run
  | node :: rest =>
    match staticText? node with
    | some text => skeletons (run ++ text) rest
    | none => textTrees run ++ skeleton node :: skeletons "" rest

end

theorem isText_skeleton (node : Node) : (skeleton node).isText = false := by
  cases node <;> rfl

theorem isNameChar_of_isNamePart {c : Char} (part : Template.Parser.isNamePart c) : Piece.isNameChar c := by
  simp only [Template.Parser.isNamePart, Bool.or_eq_true, beq_iff_eq] at part
  rcases part with (((letter | rfl) | rfl) | rfl) | rfl
  · exact isNameChar_of_isAlphanum letter
  all_goals decide

theorem tagName_of_ordinary {tag : String} (named : Template.IsName tag) (ordinary : isComponent tag = false)
    (notRaw : isRawText tag = false) : TagName tag := by
  have svg : ∀ name ∈ svgNames, ∃ c cs, name.toList = c :: cs ∧ c.isAlpha := by decide
  refine ⟨?_, fun c mem => isTagChar_of_isNameChar (isNameChar_of_isNamePart (named.parts c mem)), notRaw⟩
  simp only [isComponent, Bool.and_eq_false_iff, Bool.not_eq_false'] at ordinary
  rcases ordinary with small | known
  · obtain ⟨c, cs, whole, start⟩ := named.starts
    have first := all_eq_true.mp small c (by simp [whole])
    simp only [Template.Parser.isNameStart, Bool.or_eq_true, beq_iff_eq] at start
    rcases start with letter | rfl
    · exact ⟨c, cs, whole, letter⟩
    · exact absurd first (by decide)
  · exact svg tag (by simpa [isSvgName] using known)

theorem readableNames_append {first second : Attributes} (one : ReadableNames first) (two : ReadableNames second) :
    ReadableNames (first ++ second) := by
  intro entry mem
  rcases mem_append.mp mem with here | there
  · exact one entry here
  · exact two entry there

variable {name : String} {attrs : List Attribute}

theorem readableNames_upsert (readable : ∀ c ∈ name.toList, Piece.isNameChar c) (change : String → String)
    (fresh : String) {attrs : Attributes} (names : ReadableNames attrs) :
    ReadableNames (upsert name change fresh attrs) := by
  induction attrs with
  | nil => simpa [upsert, ReadableNames] using readable
  | cons entry attrs ih =>
    have others : ReadableNames attrs := fun other mem => names other (mem_cons_of_mem entry mem)
    have first := names entry (by simp)
    rw [upsert]
    split
    · exact forall_mem_cons.mpr ⟨first, others⟩
    · exact forall_mem_cons.mpr ⟨first, ih others⟩

theorem readableNames_add {statics : StaticAttributes} (names : ReadableNames statics.attributes) (kind : AttributeKind) (readable : ∀ c ∈ name.toList, Piece.isNameChar c) (given : Value) :
    ReadableNames (statics.add kind name given).attributes := by
  have one : ∀ value, ReadableNames [(name, value)] := by
    intro value
    simpa [ReadableNames] using readable
  unfold add
  split
  · exact readableNames_append names (one _)
  · exact readableNames_append names (one _)
  all_goals exact names

theorem readableNames_merged (lettered : ∀ entry ∈ attrs, entry.Lettered) :
    ReadableNames (ofAttributes attrs).merged := by
  have names : ReadableNames (ofAttributes attrs).attributes := by
    unfold ofAttributes
    refine foldlRecOn (motive := fun statics : StaticAttributes => ReadableNames statics.attributes) attrs _
      (by simp [ReadableNames]) fun statics names entry mem => ?_
    cases entry with
    | value kind name given =>
      have letters : ∀ c ∈ name.toList, Template.Parser.isNamePart c := lettered _ mem
      dsimp only
      split
      · exact readableNames_add names kind (fun c mem => isNameChar_of_isNamePart (letters c mem)) given
      · exact names
    | _ => exact names
  have classes : ∀ c ∈ "class".toList, Piece.isNameChar c := all_eq_true.mp (by decide)
  have styles : ∀ c ∈ "style".toList, Piece.isNameChar c := all_eq_true.mp (by decide)
  unfold merged
  dsimp only
  split
  · split
    · exact names
    · exact readableNames_upsert classes _ _ names
  · refine readableNames_upsert styles _ _ ?_
    split
    · exact names
    · exact readableNames_upsert classes _ _ names

/-- An element that is read back from a template: neither is its content raw or foreign, nor does a part of SVG stand
outside SVG, and its texts begin in ASCII. -/
structure PresentableElement (inSvg : Bool) (element : Blueprint.Element) (children : List Node) : Prop where
  plain : element.tag ∉ ["script", "style", "foreignObject"]
  placed : Element.isSvgName element.tag = true → element.tag = "svg" ∨ inSvg = true
  ascii : ∀ run ∈ runs "" children, ∀ c ∈ run.toList.head?, isAscii c

mutual

/-- The elements of a node can be read back; `inSvg` says that it stands under an element of SVG. -/
def Presentable (inSvg : Bool) : Node → Prop
  | .text _ => True
  | .expression _ _ => True
  | .component _ _ _ => True
  | .element element _ children =>
    PresentableElement inSvg element children ∧ PresentableAll (inSvg || Element.isSvgName element.tag) children

def PresentableAll (inSvg : Bool) : List Node → Prop
  | [] => True
  | node :: rest => Presentable inSvg node ∧ PresentableAll inSvg rest

end

theorem isSvg_eq {inSvg : Bool} {element : Blueprint.Element} {children : List Node}
    (built : BuiltElement inSvg element attrs children) (presentable : PresentableElement inSvg element children) :
    element.isSvg = (inSvg || element.tag == "svg") := by
  rw [built.isSvg_eq]
  cases known : isSvgName element.tag with
  | true =>
    rcases presentable.placed known with same | mem
    · simp [same]
    · simp [mem]
  | false =>
    have apart : element.tag ≠ "svg" := by
      intro same
      rw [same] at known
      exact absurd known (by decide)
    simp [apart]

theorem isVoid_eq {inSvg : Bool} {element : Blueprint.Element} {children : List Node}
    (built : BuiltElement inSvg element attrs children) : Tree.isVoid element.tag element.isSvg = element.isVoid :=
  built.isVoid_eq.symm

theorem readableAll_textTrees {names : Attributes → Prop} {inSvg : Bool} {run : String}
    (ascii : ∀ c ∈ run.toList.head?, isAscii c) {trees : List Tree} (readable : Tree.ReadableAll names inSvg trees)
    (apart : ∀ next ∈ trees.head?, next.isText = false) :
    Tree.ReadableAll names inSvg (textTrees run ++ trees) := by
  unfold textTrees
  split
  · exact readable
  · rename_i some
    cases whole : run.toList with
    | nil => exact absurd (String.toList_eq_nil_iff.mp whole) some
    | cons c cs => exact ⟨⟨c, cs, whole, ascii c (by simp [whole])⟩, fun _ => apart, readable⟩

mutual

theorem readable_skeleton {inSvg : Bool} (node : Node) (built : Built inSvg node) (presentable : Presentable inSvg node) :
    (skeleton node).Readable ReadableNames inSvg := by
  have marker : ¬ "-->".toList <:+: Live.regionStart.toList := by decide
  match node with
  | .text _ => exact marker
  | .expression _ _ => exact marker
  | .component _ _ _ => exact marker
  | .element element _ children =>
    obtain ⟨shape, below⟩ := built
    obtain ⟨fit, within⟩ := presentable
    have notRaw : isRawText element.tag = false := by
      have plain := fit.plain
      simp only [mem_cons, not_or] at plain
      simp [isRawText, plain.1, plain.2.1]
    have inner : (element.isSvg && element.tag != "foreignObject") = element.isSvg := by
      have plain := fit.plain
      simp only [mem_cons, not_or] at plain
      simp [plain.2.2.1]
    rw [inner] at below
    rw [← shape.isSvg_eq] at within
    refine ⟨isSvg_eq shape fit, tagName_of_ordinary shape.named shape.ordinary notRaw, readableNames_merged shape.lettered,
      fun void => ?_, ?_⟩
    · rw [isVoid_eq shape] at void
      rw [shape.empty void]
      rfl
    · split
      · trivial
      · exact readableAll_skeletons "" children below within fit.ascii

theorem readableAll_skeletons {inSvg : Bool} (run : String) (nodes : List Node) (built : BuiltAll inSvg nodes)
    (presentable : PresentableAll inSvg nodes) (ascii : ∀ text ∈ runs run nodes, ∀ c ∈ text.toList.head?, isAscii c) :
    Tree.ReadableAll ReadableNames inSvg (skeletons run nodes) := by
  match nodes with
  | [] =>
    have alone : Tree.ReadableAll ReadableNames inSvg (textTrees run ++ []) :=
      readableAll_textTrees (ascii run (by simp [runs])) trivial (by simp)
    rwa [append_nil] at alone
  | node :: rest =>
    rw [skeletons]
    rw [runs] at ascii
    cases static : staticText? node with
    | some text =>
      rw [static] at ascii
      exact readableAll_skeletons (run ++ text) rest built.2 presentable.2 ascii
    | none =>
      rw [static] at ascii
      have here := readable_skeleton node built.1 presentable.1
      have later := readableAll_skeletons "" rest built.2 presentable.2 fun text mem =>
        ascii text (mem_cons_of_mem run mem)
      have solid := isText_skeleton node
      refine readableAll_textTrees (ascii run (by simp)) ⟨here, by simp [solid], later⟩ ?_
      rintro _ ⟨⟩
      exact solid

end

end LiveMarkup.Codegen
