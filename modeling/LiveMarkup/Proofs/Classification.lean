import LiveMarkup.Proofs.Leniency
import LiveMarkup.Proofs.TemplatePaths

/-!
The elements of a root are classified twice: when its blueprint is built, and when the markup of its template is read. The
names of SVG decide when it is built, and what stands under an element of SVG, up to `foreignObject`; when it is read all
that stands under an element `svg` is a part of SVG, and nothing else. Which elements are void hangs on that.
-/

namespace LiveMarkup.Codegen
open Blueprint Markup Text Entity
open List hiding flatten

/-- How an element is classified: whether it is void, whether it is a part of SVG where it stands under an element `svg`, and
the elements in it. -/
inductive ElementClass where
  | element (tag : String) (isVoid isSvg : Bool) (inner : List ElementClass)

mutual

/-- The elements of a node as they are built; `underSvg` says that it stands under an element `svg`. -/
def builtClasses (underSvg : Bool) : Node → List ElementClass
  | .text _ => []
  | .expression _ _ => []
  | .component _ _ _ => []
  | .element element _ children =>
    [.element element.tag element.isVoid (underSvg && element.isSvg)
      (builtClassesOfAll (underSvg || element.tag == "svg") children)]

def builtClassesOfAll (underSvg : Bool) : List Node → List ElementClass
  | [] => []
  | node :: rest => builtClasses underSvg node ++ builtClassesOfAll underSvg rest

end

mutual

def readClasses (underSvg : Bool) : Markup.Tree → List ElementClass
  | .text _ => []
  | .comment _ => []
  | .element tag svg _ children =>
    [.element tag (Tree.isVoid tag svg) (underSvg && svg) (readClassesOfAll (underSvg || tag == "svg") children)]

def readClassesOfAll (underSvg : Bool) : List Markup.Tree → List ElementClass
  | [] => []
  | tree :: rest => readClasses underSvg tree ++ readClassesOfAll underSvg rest

end

theorem readClassesOfAll_append (underSvg : Bool) (first second : List Markup.Tree) :
    readClassesOfAll underSvg (first ++ second) = readClassesOfAll underSvg first ++ readClassesOfAll underSvg second := by
  induction first with
  | nil => rfl
  | cons _ _ ih => simp [readClassesOfAll, ih]

@[simp] theorem readClassesOfAll_textTrees (underSvg : Bool) (run : String) :
    readClassesOfAll underSvg (textTrees run) = [] := by
  unfold textTrees
  split <;> rfl

mutual

theorem readClasses_tidied (underSvg : Bool) (tree : Markup.Tree) :
    readClasses underSvg tree.tidied = readClasses underSvg tree := by
  match tree with
  | .text _ => rfl
  | .comment _ => rfl
  | .element _ _ _ children =>
    rw [Tree.tidied, readClasses, readClasses, readClassesOfAll_tidied _ children]

theorem readClassesOfAll_tidied (underSvg : Bool) (trees : List Markup.Tree) :
    readClassesOfAll underSvg (Tree.tidiedAll trees) = readClassesOfAll underSvg trees := by
  match trees with
  | [] => rfl
  | tree :: trees =>
    rw [Tree.tidiedAll, readClassesOfAll, readClassesOfAll, readClasses_tidied _ tree, readClassesOfAll_tidied _ trees]

end

variable {tag text : String} {trees : List Markup.Tree} {node : Node}

section Rule

mutual

/-- An element is classified by the rule of the reader: under an element `svg` all is SVG, nothing in SVG is void, and what
holds raw text holds no elements. -/
def ElementClass.ByReader (underSvg : Bool) : ElementClass → Prop
  | .element tag isVoid isSvg inner =>
    isSvg = underSvg ∧ isVoid = Tree.isVoid tag (underSvg || tag == "svg") ∧ (Element.isRawText tag = true → inner = []) ∧
      AllByReader (underSvg || tag == "svg") inner

def AllByReader (underSvg : Bool) : List ElementClass → Prop
  | [] => True
  | one :: rest => one.ByReader underSvg ∧ AllByReader underSvg rest

end

theorem allByReader_append {underSvg : Bool} {first second : List ElementClass} :
    AllByReader underSvg (first ++ second) ↔ AllByReader underSvg first ∧ AllByReader underSvg second := by
  induction first with
  | nil => simp [AllByReader]
  | cons _ _ ih => simp [AllByReader, ih, and_assoc]

variable {names : Attributes → Prop}

mutual

theorem byReader_readClasses {underSvg : Bool} (tree : Markup.Tree)
    (expressible : tree.Expressible names underSvg) : AllByReader underSvg (readClasses underSvg tree) := by
  match tree with
  | .text _ => trivial
  | .comment _ => trivial
  | .element tag _ _ children =>
    obtain ⟨rfl, _, _, _, raw, mem⟩ := expressible
    refine ⟨⟨by cases underSvg <;> rfl, rfl, fun kind => ?_, ?_⟩, trivial⟩
    · rcases raw kind with rfl | ⟨body, rfl, _⟩ <;> rfl
    · cases kind : Element.isRawText tag with
      | true => rcases raw kind with rfl | ⟨body, rfl, _⟩ <;> trivial
      | false => exact byReader_readClassesOfAll children (mem kind)

theorem byReader_readClassesOfAll {underSvg : Bool} (trees : List Markup.Tree)
    (expressible : Tree.ExpressibleAll names underSvg trees) : AllByReader underSvg (readClassesOfAll underSvg trees) := by
  match trees with
  | [] => trivial
  | tree :: trees =>
    rw [readClassesOfAll]
    exact allByReader_append.mpr
      ⟨byReader_readClasses tree expressible.1, byReader_readClassesOfAll trees expressible.2⟩

end

/-- The two rules agree on an element: what stands under an element `svg` is built as a part of SVG, an element with the name
of a void one is built as a part of SVG only there, and what holds raw text holds no elements. -/
structure AgreedElement (underSvg : Bool) (element : Blueprint.Element) (children : List Node) : Prop where
  svg : underSvg = true → element.isSvg = true
  void : Element.isVoid element.tag = true → element.isSvg = true → underSvg = true
  raw : Element.isRawText element.tag = true → builtClassesOfAll underSvg children = []

mutual

def Agreed (underSvg : Bool) : Node → Prop
  | .text _ => True
  | .expression _ _ => True
  | .component _ _ _ => True
  | .element element _ children =>
    AgreedElement underSvg element children ∧ AgreedAll (underSvg || element.tag == "svg") children

def AgreedAll (underSvg : Bool) : List Node → Prop
  | [] => True
  | node :: rest => Agreed underSvg node ∧ AgreedAll underSvg rest

end

theorem notSvg_of_isRawText (raw : Element.isRawText tag = true) : (tag == "svg") = false := by
  simp only [Element.isRawText, Bool.or_eq_true, beq_iff_eq] at raw
  rcases raw with rfl | rfl <;> decide

theorem notSvg_of_isVoid (void : Element.isVoid tag = true) : (tag == "svg") = false := by
  rw [beq_eq_false_iff_ne]
  rintro rfl
  exact absurd void (by decide)

variable {underSvg : Bool} {element : Blueprint.Element} {attrs : List Attribute} {children : List Node}

theorem AgreedElement.isVoid_eq (agreed : AgreedElement underSvg element children) :
    Tree.isVoid element.tag (underSvg || element.tag == "svg") = Tree.isVoid element.tag element.isSvg := by
  cases named : Element.isVoid element.tag with
  | false => simp [Tree.isVoid, named]
  | true =>
    have same : underSvg = element.isSvg := Bool.eq_iff_iff.mpr ⟨agreed.svg, agreed.void named⟩
    rw [notSvg_of_isVoid named, Bool.or_false, same]

mutual

theorem agreed_of_byReader {inSvg underSvg : Bool} (node : Node) (built : Built inSvg node)
    (byReader : AllByReader underSvg (builtClasses underSvg node)) : Agreed underSvg node := by
  match node with
  | .text _ => trivial
  | .expression _ _ => trivial
  | .component _ _ _ => trivial
  | .element _ _ children =>
    obtain ⟨⟨svg, void, raw, inner⟩, _⟩ := byReader
    refine ⟨⟨fun under => ?_, fun named known => ?_, fun kind => ?_⟩, agreed_of_byReaderAll children built.2 inner⟩
    · simpa [under] using svg
    · rw [built.1.isVoid_eq, notSvg_of_isVoid named, Tree.isVoid, known, named] at void
      simpa using void
    · simpa [notSvg_of_isRawText kind] using raw kind

theorem agreed_of_byReaderAll {inSvg underSvg : Bool} (nodes : List Node) (built : BuiltAll inSvg nodes)
    (byReader : AllByReader underSvg (builtClassesOfAll underSvg nodes)) : AgreedAll underSvg nodes := by
  match nodes with
  | [] => trivial
  | node :: rest =>
    rw [builtClassesOfAll, allByReader_append] at byReader
    exact ⟨agreed_of_byReader node built.1 byReader.1, agreed_of_byReaderAll rest built.2 byReader.2⟩

end

end Rule

theorem infix_of_infix_append {c d : Char} {front back : List Char} (apart : c ∉ front)
    (mem : [c, d] <:+: front ++ back) : [c, d] <:+: back := by
  induction front with
  | nil => exact mem
  | cons _ _ ih =>
    obtain ⟨differs, apart⟩ := not_or.mp fun taken => apart (mem_cons.mpr taken)
    rw [cons_append, infix_cons_iff] at mem
    rcases mem with starts | later
    · exact absurd (cons_prefix_cons.mp starts).1 differs
    · exact ih apart later

theorem noEndTag_skeletons (run : String) (nodes : List Node) (bare : builtClassesOfAll underSvg nodes = []) :
    ¬ ['<', '/'] <:+: Tree.charsOfAll allMarks (skeletons run nodes) := by
  have text : ∀ run back, ['<', '/'] <:+: Tree.charsOfAll allMarks (textTrees run) ++ back → ['<', '/'] <:+: back := by
    intro run back
    refine infix_of_infix_append ?_
    unfold textTrees
    split
    · simp [Tree.charsOfAll]
    · simpa [Tree.charsOfAll, Tree.chars] using
        not_mem_escape escaping_allMarks (by decide) (by decide) run.toList
  induction nodes generalizing run with
  | nil =>
    intro mem
    have none := text run [] (by simpa [skeletons] using mem)
    simp at none
  | cons node rest ih =>
    obtain ⟨here, later⟩ := append_eq_nil_iff.mp bare
    rw [skeletons]
    cases static : staticText? node with
    | some shown => exact ih (run ++ shown) later
    | none =>
      have marker : (skeleton node).chars allMarks = ['<', '!', '-', '-', '$', '-', '-', '>'] := by
        cases node with
        | element => simp [builtClasses] at here
        | _ => rfl
      intro mem
      rw [charsOfAll_append, Tree.charsOfAll, marker] at mem
      have rest := text run _ mem
      rw [cons_append, infix_cons_iff] at rest
      rcases rest with starts | behind
      · simp at starts
      · exact ih "" later (infix_of_infix_append (by decide) behind)

def contentChars (children : List Node) : List Char :=
  Tree.charsOfAll Entity.allMarks (if isSole children then [] else skeletons "" children)

mutual

def readAs (underSvg : Bool) : Node → Markup.Tree
  | .element element attributes children =>
    .element element.tag (underSvg || element.tag == "svg") (StaticAttributes.ofAttributes attributes).merged
      (if Element.isRawText element.tag then
        textTrees (String.ofList (contentChars children))
      else if isSole children then [] else readAsAll (underSvg || element.tag == "svg") "" children)
  | .text _ => .comment Live.regionStart
  | .expression _ _ => .comment Live.regionStart
  | .component _ _ _ => .comment Live.regionStart

def readAsAll (underSvg : Bool) (run : String) : List Node → List Markup.Tree
  | [] => textTrees run
  | node :: rest =>
    match staticText? node with
    | some text => readAsAll underSvg (run ++ text) rest
    | none => textTrees run ++ readAs underSvg node :: readAsAll underSvg "" rest

end

theorem isText_readAs (underSvg : Bool) (node : Node) : (readAs underSvg node).isText = false := by
  cases node <;> rfl

theorem builtClassesOfAll_of_isSole (sole : isSole children = true) (underSvg : Bool) :
    builtClassesOfAll underSvg children = [] := by
  match children with
  | [] => rfl
  | [node] =>
    cases node with
    | element => cases sole
    | _ => rfl
  | _ :: _ :: _ => cases sole

theorem noEndTag_contentChars (bare : builtClassesOfAll underSvg children = []) : ¬ ['<', '/'] <:+: contentChars children := by
  unfold contentChars
  split
  · simp [Tree.charsOfAll]
  · exact noEndTag_skeletons "" children bare

theorem rawContent_textTrees {run : String} (plain : ¬ ['<', '/'] <:+: run.toList) (tag : String) :
    Tree.RawContent tag (textTrees run) := by
  unfold textTrees
  split
  · exact .inl rfl
  · rename_i some
    have mark : ['<', '/'] <:+: ("</" ++ tag).toList := ⟨[], tag.toList, by simp⟩
    exact .inr ⟨run, rfl, some, fun mem => plain (mark.trans mem)⟩

theorem renderAll_textTrees (run : String) : Tree.renderIn.renderAll true (textTrees run) = run := by
  unfold textTrees
  split
  · rename_i none
    exact none.symm
  · simp [Tree.renderIn.renderAll, Tree.renderIn]

theorem apartAll_textTrees (run : String) : Tree.ApartAll (textTrees run) := by
  unfold textTrees
  split
  · trivial
  · exact ⟨trivial, by simp, trivial⟩

structure SpelledAs (underSvg : Bool) (trees : List Markup.Tree) (cs : List Char) : Prop where
  expressible : Tree.ExpressibleAll ReadableNames underSvg trees
  apart : Tree.ApartAll trees
  spelled : Tree.SpelledAll trees cs

theorem SpelledAs.textTrees {cs : List Char} (spelled : SpelledAs underSvg trees cs) (run : String)
    (apart : ∀ next ∈ trees.head?, next.isText = false) :
    SpelledAs underSvg (textTrees run ++ trees) (Tree.charsOfAll allMarks (textTrees run) ++ cs) := by
  unfold Codegen.textTrees
  split
  · exact spelled
  · rename_i some
    refine ⟨⟨some, spelled.expressible⟩, ⟨trivial, fun _ => apart, spelled.apart⟩, ?_⟩
    rw [Tree.charsOfAll, Tree.charsOfAll, append_nil]
    exact ⟨_, _, rfl, ⟨_, escaping_allMarks, by decide, rfl⟩, spelled.spelled⟩

theorem SpelledAs.cons {tree : Markup.Tree} {first others : List Char}
    (one : SpelledAs underSvg [tree] first) (rest : SpelledAs underSvg trees others) (solid : tree.isText = false) :
    SpelledAs underSvg (tree :: trees) (first ++ others) := by
  obtain ⟨_, _, rfl, here, rfl⟩ := one.spelled
  rw [append_nil]
  exact ⟨⟨one.expressible.1, rest.expressible⟩, ⟨one.apart.1, by simp [solid], rest.apart⟩, ⟨_, _, rfl, here, rest.spelled⟩⟩

theorem readableTag_of_ordinary (named : Template.IsName tag) (ordinary : Element.isComponent tag = false) :
    ReadableTag tag := by
  cases kind : Element.isRawText tag with
  | false => exact (tagName_of_ordinary named ordinary kind).readableTag
  | true =>
    simp only [Element.isRawText, Bool.or_eq_true, beq_iff_eq] at kind
    rcases kind with rfl | rfl
    all_goals exact ⟨⟨'s', _, rfl, by decide⟩, all_eq_true.mp (by decide)⟩

theorem spelledAs_element {inSvg : Bool} (shape : BuiltElement inSvg element attrs children)
    (agreed : AgreedElement underSvg element children)
    (content : SpelledAs (underSvg || element.tag == "svg")
      (if isSole children then [] else readAsAll (underSvg || element.tag == "svg") "" children) (contentChars children)) :
    SpelledAs underSvg [readAs underSvg (.element element attrs children)]
      ((skeleton (.element element attrs children)).chars allMarks) := by
  have readable := readableTag_of_ordinary shape.named shape.ordinary
  have names := readableNames_merged shape.lettered
  have empty : Tree.isVoid element.tag (underSvg || element.tag == "svg") = true → children = [] := by
    rw [agreed.isVoid_eq, isVoid_eq shape]
    exact shape.empty
  rw [skeleton, Tree.chars, ← agreed.isVoid_eq, ← contentChars, readAs]
  cases kind : Element.isRawText element.tag with
  | true =>
    have closed := Tree.isVoid_of_isRawText kind (underSvg || element.tag == "svg")
    have plain : ¬ ['<', '/'] <:+: (String.ofList (contentChars children)).toList := by
      rw [String.toList_ofList]
      exact noEndTag_contentChars (agreed.raw kind)
    refine ⟨⟨⟨rfl, readable, names, by simp [closed], fun _ => rawContent_textTrees plain _, by simp [kind]⟩, trivial⟩,
      ⟨apartAll_textTrees _, by simp [Tree.isText], trivial⟩, _, [], (append_nil _).symm, ?_, rfl⟩
    refine ⟨_, _, escaping_allMarks, by decide, fun _ => ?_, by simp [kind], rfl⟩
    rw [if_pos rfl, renderAll_textTrees, String.toList_ofList]
  | false =>
    refine ⟨⟨⟨rfl, readable, names, fun void => ?_, by simp [kind], fun _ => content.expressible⟩, trivial⟩,
      ⟨content.apart, by simp [Tree.isText], trivial⟩, _, [], (append_nil _).symm, ?_, rfl⟩
    · rw [empty void]
      rfl
    · exact ⟨_, _, escaping_allMarks, by decide, by simp [kind], fun _ => content.spelled, rfl⟩

mutual

theorem spelledAs_node {inSvg underSvg : Bool} (node : Node) (built : Built inSvg node) (agreed : Agreed underSvg node) :
    SpelledAs underSvg [readAs underSvg node] ((skeleton node).chars allMarks) := by
  have closed : ¬ "-->".toList <:+: Live.regionStart.toList := by decide
  have marker : SpelledAs underSvg [.comment Live.regionStart] (Tree.chars allMarks (.comment Live.regionStart)) :=
    ⟨⟨closed, trivial⟩, ⟨trivial, by simp [Tree.isText], trivial⟩, ⟨_, [], (append_nil _).symm, rfl, rfl⟩⟩
  match node with
  | .text _ => exact marker
  | .expression _ _ => exact marker
  | .component _ _ _ => exact marker
  | .element _ _ children =>
    refine spelledAs_element built.1 agreed.1 ?_
    unfold contentChars
    split
    · exact ⟨trivial, trivial, rfl⟩
    · exact spelledAs_nodes "" children built.2 agreed.2

theorem spelledAs_nodes {inSvg underSvg : Bool} (run : String) (nodes : List Node) (built : BuiltAll inSvg nodes)
    (agreed : AgreedAll underSvg nodes) :
    SpelledAs underSvg (readAsAll underSvg run nodes) (Tree.charsOfAll allMarks (skeletons run nodes)) := by
  match nodes with
  | [] =>
    have none : SpelledAs underSvg [] [] := ⟨trivial, trivial, rfl⟩
    simpa [readAsAll, skeletons] using none.textTrees run (by simp)
  | node :: rest =>
    rw [readAsAll, skeletons]
    cases static : staticText? node with
    | some text => exact spelledAs_nodes (run ++ text) rest built.2 agreed.2
    | none =>
      have solid := isText_readAs underSvg node
      rw [charsOfAll_append, Tree.charsOfAll]
      refine SpelledAs.textTrees ?_ run ?_
      · exact (spelledAs_node node built.1 agreed.1).cons (spelledAs_nodes "" rest built.2 agreed.2) solid
      · rintro _ ⟨⟩
        exact solid

end

theorem builtClasses_of_staticText (static : staticText? node = some text) : builtClasses underSvg node = [] := by
  cases node with
  | element => cases static
  | _ => rfl

mutual

theorem readClasses_readAs {inSvg underSvg : Bool} (node : Node) (built : Built inSvg node) (agreed : Agreed underSvg node) :
    readClasses underSvg (readAs underSvg node) = builtClasses underSvg node := by
  match node with
  | .text _ => rfl
  | .expression _ _ => rfl
  | .component _ _ _ => rfl
  | .element element _ children =>
    obtain ⟨shape, below⟩ := built
    obtain ⟨fit, within⟩ := agreed
    have svg : (underSvg && (underSvg || element.tag == "svg")) = (underSvg && element.isSvg) := by
      cases under : underSvg with
      | false => rfl
      | true => simp [fit.svg under]
    rw [readAs, readClasses, builtClasses, fit.isVoid_eq, isVoid_eq shape, svg]
    congr 2
    split
    · rename_i kind
      rw [readClassesOfAll_textTrees, notSvg_of_isRawText kind, Bool.or_false, fit.raw kind]
    · split
      · rename_i sole
        exact (builtClassesOfAll_of_isSole sole _).symm
      · exact readClassesOfAll_readAsAll "" children below within

theorem readClassesOfAll_readAsAll {inSvg underSvg : Bool} (run : String) (nodes : List Node) (built : BuiltAll inSvg nodes)
    (agreed : AgreedAll underSvg nodes) :
    readClassesOfAll underSvg (readAsAll underSvg run nodes) = builtClassesOfAll underSvg nodes := by
  match nodes with
  | [] => exact readClassesOfAll_textTrees underSvg run
  | node :: rest =>
    rw [readAsAll, builtClassesOfAll]
    cases static : staticText? node with
    | some text =>
      rw [builtClasses_of_staticText static, nil_append]
      exact readClassesOfAll_readAsAll (run ++ text) rest built.2 agreed.2
    | none =>
      have here := readClasses_readAs node built.1 agreed.1
      have later := readClassesOfAll_readAsAll "" rest built.2 agreed.2
      rw [readClassesOfAll_append, readClassesOfAll_textTrees, readClassesOfAll, here, later, nil_append]

end

def BeginsInAscii (run : String) : Prop := ∀ c ∈ run.toList.head?, isAscii c

mutual

/-- Whether each run of text in the elements of a node begins in ASCII, if it is not raw. -/
def Legible : Node → Prop
  | .text _ => True
  | .expression _ _ => True
  | .component _ _ _ => True
  | .element element _ children =>
    Element.isRawText element.tag = false → (∀ run ∈ runs "" children, BeginsInAscii run) ∧ LegibleAll children

def LegibleAll : List Node → Prop
  | [] => True
  | node :: rest => Legible node ∧ LegibleAll rest

end

theorem areLegible_append (first second : List Markup.Tree) :
    Tree.areLegible (first ++ second) = (Tree.areLegible first && Tree.areLegible second) := by
  induction first with
  | nil => rfl
  | cons _ _ ih => simp [Tree.areLegible, ih, Bool.and_assoc]

theorem areLegible_textTrees (run : String) : Tree.areLegible (textTrees run) = true ↔ BeginsInAscii run := by
  unfold textTrees BeginsInAscii
  split
  · rename_i none
    simp [none, Tree.areLegible]
  · cases first : run.toList.head? <;> simp [Tree.areLegible, Tree.isLegible, first]

theorem legible_of_staticText (static : staticText? node = some text) : Legible node := by
  cases node with
  | element => cases static
  | _ => trivial

theorem legible_of_isSole (sole : isSole children = true) :
    (∀ run ∈ runs "" children, BeginsInAscii run) ∧ LegibleAll children := by
  have empty : BeginsInAscii "" := by simp [BeginsInAscii]
  match children with
  | [] => exact ⟨by simpa [runs] using empty, trivial⟩
  | [node] =>
    have none : staticText? node = none := by
      cases node with
      | text => cases sole
      | expression given => simp [staticText?, show given.dynamic = true from sole]
      | _ => rfl
    refine ⟨by simpa [runs, none] using empty, ?_, trivial⟩
    cases node with
    | element => cases sole
    | _ => trivial
  | _ :: _ :: _ => cases sole

mutual

theorem isLegible_readAs (underSvg : Bool) (node : Node) : (readAs underSvg node).isLegible = true ↔ Legible node := by
  match node with
  | .text _ | .expression _ _ | .component _ _ _ => exact iff_of_true rfl trivial
  | .element element _ children =>
    rw [readAs, Tree.isLegible, Legible]
    cases kind : Element.isRawText element.tag with
    | true => simp
    | false =>
      rw [Bool.false_or, if_neg (by simp), forall_prop_of_true rfl]
      split
      · rename_i sole
        exact iff_of_true rfl (legible_of_isSole sole)
      · exact areLegible_readAsAll _ "" children

theorem areLegible_readAsAll (underSvg : Bool) (run : String) (nodes : List Node) :
    Tree.areLegible (readAsAll underSvg run nodes) = true ↔ (∀ text ∈ runs run nodes, BeginsInAscii text) ∧ LegibleAll nodes := by
  match nodes with
  | [] => simpa [readAsAll, runs, LegibleAll] using areLegible_textTrees run
  | node :: rest =>
    rw [readAsAll, runs, LegibleAll]
    cases static : staticText? node with
    | some text =>
      rw [areLegible_readAsAll underSvg (run ++ text) rest, and_iff_right (legible_of_staticText static)]
    | none =>
      rw [areLegible_append, Tree.areLegible, Bool.and_eq_true, Bool.and_eq_true, areLegible_textTrees,
        isLegible_readAs underSvg node, areLegible_readAsAll underSvg "" rest, forall_mem_cons]
      tauto

end

section Roots

variable {underSvg : Bool} {element : Blueprint.Element} {attributes : List Attribute} {children : List Node}
variable {inSvg svgRoot : Bool} {nodes : List Node} {root : Node}

def templateMarkup (svgRoot : Bool) (html : String) : String := if svgRoot then "<svg>" ++ html ++ "</svg>" else html

def templateClasses (svgRoot : Bool) (root : Node) : List ElementClass :=
  if svgRoot then [.element "svg" false false (builtClasses true root)] else builtClasses false root

theorem templateClasses_byReader (byReader : AllByReader false (templateClasses svgRoot root)) :
    AllByReader svgRoot (builtClasses svgRoot root) := by
  cases svgRoot with
  | false => exact byReader
  | true => exact byReader.1.2.2.2

def templateTrees (svgRoot : Bool) (root : Node) : List Markup.Tree :=
  if svgRoot then [.element "svg" true [] [readAs true root]] else [readAs false root]

theorem readClassesOfAll_templateTrees (built : Built inSvg root) (agreed : Agreed svgRoot root) :
    readClassesOfAll false (templateTrees svgRoot root) = templateClasses svgRoot root := by
  have same := readClasses_readAs root built agreed
  cases svgRoot with
  | false => simp [templateTrees, templateClasses, readClassesOfAll, same]
  | true =>
    have closed : Tree.isVoid "svg" true = false := by decide
    simp [templateTrees, templateClasses, readClassesOfAll, readClasses, same, closed]

theorem areLegible_templateTrees (svgRoot : Bool) (root : Node) :
    Tree.areLegible (templateTrees svgRoot root) = true ↔ Legible root := by
  rw [← isLegible_readAs svgRoot root]
  cases svgRoot with
  | false => simp [templateTrees, Tree.areLegible]
  | true =>
    have notRaw : Element.isRawText "svg" = false := by decide
    simp [templateTrees, Tree.areLegible, Tree.isLegible, notRaw]

theorem spelledAs_root (built : Built inSvg root) (agreed : Agreed svgRoot root) {html : String}
    (written : html.toList = (skeleton root).chars allMarks) :
    SpelledAs false (templateTrees svgRoot root) (templateMarkup svgRoot html).toList := by
  have spelled := spelledAs_node root built agreed
  rw [← written] at spelled
  cases svgRoot with
  | false => exact spelled
  | true =>
    have name : ReadableTag "svg" := ⟨⟨'s', _, rfl, by decide⟩, all_eq_true.mp (by decide)⟩
    have closed : Tree.isVoid "svg" true = false := by decide
    have notRaw : Element.isRawText "svg" = false := by decide
    refine ⟨⟨⟨rfl, name, by simp [ReadableNames], by simp [closed], by simp [notRaw], fun _ => spelled.expressible⟩, trivial⟩,
      ⟨spelled.apart, by simp [Tree.isText], trivial⟩, _, [], (append_nil _).symm, ?_, rfl⟩
    refine ⟨allMarks, html.toList, escaping_allMarks, by decide, by simp [notRaw], fun _ => spelled.spelled, ?_⟩
    simp [templateMarkup, closed]

theorem built_of_mem (built : BuiltAll inSvg nodes) (mem : node ∈ nodes) : Built inSvg node := by
  induction nodes with
  | nil => cases mem
  | cons _ _ ih =>
    rcases mem_cons.mp mem with rfl | later
    · exact built.1
    · exact ih built.2 later

def HasSvgName : Node → Prop
  | .element element _ _ => Element.isSvgName element.tag = true
  | _ => True

def IsSvgPart : Node → Prop
  | .element element _ _ => element.isSvg = true
  | _ => True

/-- Nothing is disputed about an element: with the name of a void one it is not built as a part of SVG outside an element
`svg`, as `foreignObject` under one it holds names of SVG only, and with raw text it holds no elements. -/
structure UndisputedElement (underSvg : Bool) (element : Blueprint.Element) (children : List Node) : Prop where
  void : underSvg = false → Element.isVoid element.tag = true → element.isSvg = false
  foreign : underSvg = true → element.tag = "foreignObject" → ∀ child ∈ children, HasSvgName child
  raw : Element.isRawText element.tag = true → builtClassesOfAll underSvg children = []

mutual

def Undisputed (underSvg : Bool) : Node → Prop
  | .text _ => True
  | .expression _ _ => True
  | .component _ _ _ => True
  | .element element _ children =>
    UndisputedElement underSvg element children ∧ UndisputedAll (underSvg || element.tag == "svg") children

def UndisputedAll (underSvg : Bool) : List Node → Prop
  | [] => True
  | node :: rest => Undisputed underSvg node ∧ UndisputedAll underSvg rest

end

theorem isSvgPart_of_agreedAll (agreed : AgreedAll underSvg nodes) (under : underSvg = true) :
    ∀ node ∈ nodes, IsSvgPart node := by
  induction nodes with
  | nil => simp
  | cons node _ ih =>
    refine forall_mem_cons.mpr ⟨?_, ih agreed.2⟩
    cases node with
    | element => exact agreed.1.1.svg under
    | _ => trivial

theorem isSvgPart_iff (built : BuiltAll inSvg nodes) :
    (∀ node ∈ nodes, IsSvgPart node) ↔ (inSvg = false → ∀ node ∈ nodes, HasSvgName node) := by
  induction nodes with
  | nil => simp
  | cons node _ ih =>
    have here : IsSvgPart node ↔ (inSvg = false → HasSvgName node) := by
      cases node with
      | element =>
        have known := built.1.1.isSvg_eq
        cases inSvg <;> simp [IsSvgPart, HasSvgName, known]
      | _ => simp [IsSvgPart, HasSvgName]
    rw [forall_mem_cons, forall_mem_cons, ih built.2, here]
    tauto

theorem entered_iff (shape : BuiltElement inSvg element attributes children)
    (below : BuiltAll (element.isSvg && element.tag != "foreignObject") children)
    (entered : underSvg = true → element.isSvg = true) :
    ((underSvg || element.tag == "svg") = true → ∀ child ∈ children, IsSvgPart child) ↔
      (underSvg = true → element.tag = "foreignObject" → ∀ child ∈ children, HasSvgName child) := by
  rw [isSvgPart_iff below]
  constructor
  · intro mem under named
    exact mem (by simp [under]) (by simp [named])
  · intro foreign within outside
    have svg : element.isSvg = true := by
      rcases Bool.or_eq_true_iff.mp within with under | named
      · exact entered under
      · rw [shape.isSvg_eq, eq_of_beq named]
        exact Bool.or_eq_true_iff.mpr (.inr (by decide))
    have named : element.tag = "foreignObject" := by simpa [svg] using outside
    have apart : (element.tag == "svg") = false := by
      rw [named]
      decide
    exact foreign (by simpa [apart] using within) named

mutual

theorem agreed_iff {inSvg underSvg : Bool} (node : Node) (built : Built inSvg node)
    (entered : underSvg = true → IsSvgPart node) : Agreed underSvg node ↔ Undisputed underSvg node := by
  match node with
  | .text _ => exact Iff.rfl
  | .expression _ _ => exact Iff.rfl
  | .component _ _ _ => exact Iff.rfl
  | .element _ _ children =>
    obtain ⟨shape, below⟩ := built
    have foreign := entered_iff shape below entered
    constructor
    · rintro ⟨fit, within⟩
      have mem := isSvgPart_of_agreedAll within
      refine ⟨⟨fun outside named => ?_, foreign.mp mem, fit.raw⟩, (agreed_iffAll children below mem).mp within⟩
      rw [Bool.eq_false_iff]
      intro known
      exact Bool.eq_false_iff.mp outside (fit.void named known)
    · rintro ⟨fit, within⟩
      have mem := foreign.mpr fit.foreign
      refine ⟨⟨entered, fun named known => ?_, fit.raw⟩, (agreed_iffAll children below mem).mpr within⟩
      by_contra outside
      rw [fit.void (by simpa using outside) named] at known
      cases known

theorem agreed_iffAll {inSvg underSvg : Bool} (nodes : List Node) (built : BuiltAll inSvg nodes)
    (entered : underSvg = true → ∀ node ∈ nodes, IsSvgPart node) : AgreedAll underSvg nodes ↔ UndisputedAll underSvg nodes := by
  match nodes with
  | [] => exact Iff.rfl
  | node :: rest =>
    exact and_congr (agreed_iff node built.1 fun under => entered under node (by simp))
      (agreed_iffAll rest built.2 fun under other later => entered under other (mem_cons_of_mem node later))

end

/-- The elements of a root are classified alike when its blueprint is built and when its template is read, with the same
shape, the same void ones and, under an element `svg`, the same parts of SVG, only if nothing is disputed about them. If
so, they are classified alike wherever each run of text begins in ASCII, and it is there that the template is read to
its end. -/
theorem classified_alike_iff {trees : List Template.Tree} {blueprint : Blueprint} (template : Template.IsTemplate trees)
    (built : build trees = .ok blueprint) (inside : .element element attributes children ∈ blueprint.roots) (context : Context) :
    let root := Node.element element attributes children
    let svgRoot := element.isSvg && element.tag != "svg"
    let program := (rootProgram element attributes children context).1
    let reading := read (templateMarkup svgRoot program.html)
    clientRoot root context = program.render svgRoot (rootProgram element attributes children context).2 ∧
      (readClassesOfAll false reading.forest = templateClasses svgRoot root → Undisputed svgRoot root) ∧
      (Undisputed svgRoot root → (reading.complete = true ↔ Legible root) ∧
        (Legible root → readClassesOfAll false reading.forest = templateClasses svgRoot root)) := by
  intro root svgRoot program reading
  have shape : Built false root := built_of_mem (built_build template built) inside
  have written : program.html.toList = (skeleton root).chars allMarks := html_rootProgram shape context
  have agreed_iff : Agreed svgRoot root ↔ Undisputed svgRoot root :=
    agreed_iff root shape fun within => (Bool.and_eq_true_iff.mp within).1
  rw [← agreed_iff]
  refine ⟨by rw [clientRoot_element]; rfl, fun same => ?_, fun agreed => ?_⟩
  · have byReader := byReader_readClassesOfAll _ (expressible_read (templateMarkup svgRoot program.html))
    rw [show readClassesOfAll false _ = _ from same] at byReader
    exact agreed_of_byReader root shape (templateClasses_byReader byReader)
  · have spelled := spelledAs_root shape agreed written
    have legible := areLegible_templateTrees svgRoot root
    have reads : (Tree.areLegible (templateTrees svgRoot root) = true →
          reading = ⟨Tree.tidiedAll (templateTrees svgRoot root), true⟩) ∧
        (Tree.areLegible (templateTrees svgRoot root) = false → reading.complete = false) :=
      read_spelled (fun _ names => names) spelled.expressible spelled.apart spelled.spelled
    refine ⟨⟨fun complete => ?_, fun fits => by rw [reads.1 (legible.mpr fits)]⟩, fun fits => ?_⟩
    · by_contra unfit
      rw [reads.2 (Bool.eq_false_iff.mpr fun fits => unfit (legible.mp fits))] at complete
      cases complete
    · rw [reads.1 (legible.mpr fits), readClassesOfAll_tidied]
      exact readClassesOfAll_templateTrees shape agreed

/-- The root of the paragraph is read to its end, and its elements are classified alike. -/
theorem classified_alike_iff_greeting :
    let reading := read (rootProgram greetingElement [] greetingChildren ⟨.client, "rt", {}, []⟩).1.html
    reading.complete = true ∧
      readClassesOfAll false reading.forest = [.element "p" false false [.element "b" false false []]] := by
  have b : Undisputed false (.element greetingElement [] greetingChildren) := by
    have p : UndisputedElement false greetingElement greetingChildren := ⟨by decide, nofun, by decide⟩
    exact ⟨p, trivial, ⟨⟨by decide, nofun, by decide⟩, trivial⟩, trivial, trivial⟩
  have legible : Legible (.element greetingElement [] greetingChildren) := by
    have text : runs "" greetingChildren = ["a", "", ""] := by decide
    have none : runs "" [] = [""] := rfl
    refine fun _ => ⟨?_, trivial, fun _ => ⟨?_, trivial⟩, trivial, trivial⟩
    · simp [text, BeginsInAscii, isAscii]
    · simp [none, BeginsInAscii]
  obtain ⟨_, _, alike⟩ := classified_alike_iff isTemplate_greeting build_greeting mem_cons_self ⟨.client, "rt", {}, []⟩
  obtain ⟨complete, same⟩ := alike b
  exact ⟨complete.mpr legible, same legible⟩

end Roots

/-- A break and a paragraph in a part of SVG that is foreign to it. -/
def foreign : List Template.Tree :=
  [.element "svg" []
    [.element "foreignObject" [] [.element "br" [] [] true (placed 20 25), .element "p" [] [] false (placed 25 32)] false
      (placed 5 48)] false (placed 0 54)]

def foreignElement : Blueprint.Element := ⟨"svg", false, true, 1, 1, placed 0 54, false⟩

def foreignChildren : List Node :=
  [.element ⟨"foreignObject", false, true, 2, 2, placed 5 48, false⟩ []
    [.element ⟨"br", true, false, 0, 0, placed 20 25, false⟩ [] [],
      .element ⟨"p", false, false, 0, 0, placed 25 32, false⟩ [] []]]

theorem build_foreign : build foreign = .ok ⟨false, [.element foreignElement [] foreignChildren]⟩ := by
  have svg : Element.isComponent "svg" = false ∧ Element.isSvgName "svg" = true := by decide
  have object : Element.isComponent "foreignObject" = false ∧ Element.isSvgName "foreignObject" = true := by decide
  have br : Element.isComponent "br" = false ∧ Element.isSvgName "br" = false ∧ Element.isVoid "br" = true := by decide
  have p : Element.isComponent "p" = false ∧ Element.isSvgName "p" = false ∧ Element.isVoid "p" = false := by decide
  simp [build, foreign, nodes, node, svg, object, br, p, flatten, splice]
  rfl

theorem read_foreign : (read "<svg><foreignObject><br><p></p></foreignObject></svg>").forest =
    [.element "svg" true [] [.element "foreignObject" true [] [.element "br" true [] [.element "p" true [] []]]]] := by
  have bare : ReadableNames [] := by simp [ReadableNames]
  have svg : ReadableTag "svg" := ⟨⟨'s', _, rfl, by decide⟩, all_eq_true.mp (by decide)⟩
  have object : ReadableTag "foreignObject" := ⟨⟨'f', _, rfl, by decide⟩, all_eq_true.mp (by decide)⟩
  have br : ReadableTag "br" := ⟨⟨'b', _, rfl, by decide⟩, all_eq_true.mp (by decide)⟩
  have p : ReadableTag "p" := ⟨⟨'p', _, rfl, by decide⟩, all_eq_true.mp (by decide)⟩
  have start := fun {tag} (name : ReadableTag tag) notRaw =>
    scan_startTag escaping_allMarks (by decide) name notRaw bare
  have scanned : Piece.scan "<svg><foreignObject><br><p></p></foreignObject></svg>".toList =
      ([.startTag "svg" [] false, .startTag "foreignObject" [] false, .startTag "br" [] false, .startTag "p" [] false,
        .endTag "p", .endTag "foreignObject", .endTag "svg"], true) := by
    refine (start svg (by decide) "<foreignObject><br><p></p></foreignObject></svg>".toList).trans ?_
    rw [show Piece.scan "<foreignObject><br><p></p></foreignObject></svg>".toList = _ from
        start object (by decide) "<br><p></p></foreignObject></svg>".toList,
      show Piece.scan "<br><p></p></foreignObject></svg>".toList = _ from
        start br (by decide) "<p></p></foreignObject></svg>".toList,
      show Piece.scan "<p></p></foreignObject></svg>".toList = _ from
        start p (by decide) "</p></foreignObject></svg>".toList,
      show Piece.scan "</p></foreignObject></svg>".toList = _ from scan_endTag p "</foreignObject></svg>".toList,
      show Piece.scan "</foreignObject></svg>".toList = _ from scan_endTag object "</svg>".toList,
      show Piece.scan "</svg>".toList = _ from scan_endTag svg [], Piece.scan]
    rfl
  rw [Markup.read, scanned]
  rfl

/-- What stands in `foreignObject` is built as no part of SVG and read as one: a break that is void holds a paragraph. -/
theorem classified_differs : build foreign = .ok ⟨false, [.element foreignElement [] foreignChildren]⟩ ∧
      (∀ context, (rootProgram foreignElement [] foreignChildren context).1.html =
        "<svg><foreignObject><br><p></p></foreignObject></svg>") ∧
      builtClasses false (.element foreignElement [] foreignChildren) = [.element "svg" false false
        [.element "foreignObject" false true [.element "br" true false [], .element "p" false false []]]] ∧
      readClassesOfAll false (read "<svg><foreignObject><br><p></p></foreignObject></svg>").forest =
        [.element "svg" false false
          [.element "foreignObject" false true [.element "br" false true [.element "p" false true []]]]] := by
  refine ⟨build_foreign, fun _ => rfl, rfl, ?_⟩
  rw [read_foreign]
  rfl

end LiveMarkup.Codegen
