import LiveMarkup.Proofs.AttributeAgreement

/-!
The two attributes that are lists, `class` and `style`, which bindings change part by part. What an element shows of its
class depends on the last values alone, however often and in whatever order they were bound, and both lists are compared
with what is printed of the same values.
-/

namespace LiveMarkup.Live
open Text Markup Document Codegen List Option Style

section Printed

variable {tag : String}

/-- What the open tag with some markup in it gives under a name, if the tag can be read. -/
def readBack? (tag name markup : String) : Option (Option String) :=
  (tagAttributes? ("<" ++ tag ++ markup ++ ">")).map (valueUnder? · name)

theorem readBack?_written (readable : ReadableTag tag) {name : String} (named : name ≠ "")
    (lettered : ∀ c ∈ name.toList, Piece.isNameChar c) (value : Option String) :
    readBack? tag name (written (Codegen.optional name value)) = some value := by
  have names : ReadableNames (Codegen.optional name value) := by
    intro entry mem
    obtain ⟨_, -, rfl⟩ := mem_map.mp mem
    exact lettered
  rw [readBack?, tagAttributes?_written readable names, map_some, valueUnder?_addAttributes _ _ named,
    nil_append]
  cases value with
  | none => rfl
  | some text => exact congrArg some ((valueUnder?_cons (name, text) [] name).trans (if_pos rfl))

theorem readBack?_classes (readable : ReadableTag tag) (base : Option String) (toggles : List (String × Bool)) :
    readBack? tag "class" (classesMarkup base toggles) = some (mergedClass base toggles) := by
  rw [classesMarkup_eq]
  exact readBack?_written readable (by decide) (all_eq_true.mp (by decide)) _

theorem readBack?_styles (readable : ReadableTag tag) (base : Option String) (properties : List (String × Option String)) :
    readBack? tag "style" (stylesMarkup base properties) = some (mergedStyle base properties) := by
  rw [stylesMarkup_eq]
  exact readBack?_written readable (by decide) (all_eq_true.mp (by decide)) _

end Printed

section Toggled

variable {toggles : List (String × Bool)}

theorem mem_foldl_toggled (once : (toggles.map Prod.fst).Nodup) {names : List String} {word : String} :
    word ∈ toggles.foldl (fun names toggle => toggled names toggle.1 toggle.2) names ↔
      word ∈ names ∧ valueUnder? toggles word ≠ some false ∨ valueUnder? toggles word = some true := by
  induction toggles generalizing names with
  | nil => simp [valueUnder?]
  | cons toggle _ ih =>
    obtain ⟨name, present⟩ := toggle
    obtain ⟨absent, once⟩ := nodup_cons.mp once
    rw [foldl_cons, ih once, mem_toggled, valueUnder?_cons]
    by_cases same : name = word
    · subst same
      rw [valueUnder?_of_not_mem absent, if_pos rfl]
      cases present <;> simp
    · have apart : word ≠ name := fun h => same h.symm
      rw [if_neg same]
      simp [apart]

theorem isWord_of_mem_foldl (words : ∀ toggle ∈ toggles, IsWord toggle.1) {names : List String}
    (start : ∀ name ∈ names, IsWord name) :
    ∀ name ∈ toggles.foldl (fun names toggle => toggled names toggle.1 toggle.2) names, IsWord name := by
  induction toggles generalizing names with
  | nil => exact start
  | cons toggle _ ih =>
    exact ih (fun other mem => words other (mem_cons_of_mem toggle mem))
      (isWord_of_mem_toggled start (words toggle mem_cons_self))

theorem classesIn_toggleClassIn {name : String} (word : IsWord name) (present : Bool) (attrs : Attributes) :
    classesIn (toggleClassIn name present attrs) = toggled (classesIn attrs) name present := by
  have words : ∀ w ∈ toggled (classesIn attrs) name present, IsWord w :=
    isWord_of_mem_toggled (fun _ => isWord_of_mem_classesIn) word
  unfold toggleClassIn
  dsimp only
  split
  · rename_i settled
    cases present with
    | true => rw [toggled, if_pos rfl, if_pos settled]
    | false =>
      have absent : name ∉ classesIn attrs := by simpa using settled
      have kept : ∀ other ∈ classesIn attrs, (other != name) = true := by
        intro other mem
        simp only [bne_iff_ne]
        exact fun same => absent (same ▸ mem)
      exact (filter_eq_self.mpr kept).symm
  · rw [classesIn_eq, valueUnder?_withAttribute, if_pos rfl, wordsOf_classText words]

theorem classesIn_foldl (words : ∀ toggle ∈ toggles, IsWord toggle.1) (attrs : Attributes) :
    classesIn (toggles.foldl (fun attrs toggle => toggleClassIn toggle.1 toggle.2 attrs) attrs) =
      toggles.foldl (fun names toggle => toggled names toggle.1 toggle.2) (classesIn attrs) := by
  induction toggles generalizing attrs with
  | nil => rfl
  | cons toggle _ ih =>
    rw [foldl_cons, foldl_cons, ih fun other mem => words other (mem_cons_of_mem toggle mem),
      classesIn_toggleClassIn (words toggle mem_cons_self)]

theorem valueUnder?_normalizeIn_class (attrs : Attributes) :
    valueUnder? (normalizeIn "class" normalClass attrs) "class" = classText (classesIn attrs) := by
  unfold normalizeIn
  cases found : valueUnder? attrs "class" with
  | none => simp [classText, classesIn, found]
  | some text =>
    have names : classesIn attrs = wordsOf text := by simp [classesIn, found]
    rw [valueUnder?_withAttribute, if_pos rfl, names, classText_eq fun word mem => isWord_of_mem_wordsOf mem]
    rfl

theorem valueUnder?_bindAttributeIn_class {toggles : Toggles} (words : ∀ toggle ∈ toggles.classes, IsWord toggle.1)
    (value : Option String) (attrs : Attributes) :
    valueUnder? (bindAttributeIn "class" value (some toggles) attrs) "class" = mergedClass value toggles.classes := by
  have names : classesIn (withAttribute "class" value attrs) = wordsOf (value.getD "") := by
    rw [classesIn_eq, valueUnder?_withAttribute, if_pos rfl]
  unfold bindAttributeIn
  dsimp only
  rw [if_pos rfl, valueUnder?_normalizeIn_class, classesIn_foldl words, names]
  rfl

theorem classesIn_bindAttributeIn {toggles : Option Toggles}
    (words : ∀ toggle ∈ (toggles.getD {}).classes, IsWord toggle.1) (value : Option String) (attrs : Attributes) :
    classesIn (bindAttributeIn "class" value toggles attrs) =
      (toggles.getD {}).classes.foldl (fun names toggle => toggled names toggle.1 toggle.2) (wordsOf (value.getD "")) := by
  rw [classesIn_eq]
  cases toggles with
  | none =>
    rw [bindAttributeIn, valueUnder?_withAttribute, if_pos rfl]
    rfl
  | some =>
    rw [getD_some] at words
    rw [valueUnder?_bindAttributeIn_class words]
    exact wordsOf_classText (isWord_of_mem_foldl words fun _ mem => isWord_of_mem_wordsOf mem)

end Toggled

section Histories

variable {η : Type}
variable {history : List (Binding × Option String)} {node : Node η Property} {doc : Document η Property} {n : NodeId}

def applyAll (n : NodeId) (history : List (Binding × Option String)) (doc : Document η Property) : Document η Property :=
  history.foldl (fun doc step => step.1.apply n step.2 doc) doc

/-- The value that a binding was given last, if it was given any. -/
def latest? (binding : Binding) (history : List (Binding × Option String)) : Option (Option String) :=
  (history.reverse.find? fun step => decide (step.1 = binding)).map Prod.snd

theorem latest?_append (binding : Binding) (history : List (Binding × Option String)) (step : Binding × Option String) :
    latest? binding (history ++ [step]) = if step.1 = binding then some step.2 else latest? binding history := by
  rw [latest?, reverse_append, reverse_singleton, singleton_append, find?_cons]
  by_cases same : step.1 = binding
  · simp [same]
  · simp [same, latest?]

/-- Whether a binding sets the class as a whole or toggles one class. -/
def OfClass (binding : Binding) : Prop := binding = .plain "class" ∨ ∃ name, IsWord name ∧ binding = .toggle name

/-- The class that toggles apply to: the one that was bound last, or else the one that the element came with. -/
def classBase (initial : Option String) (history : List (Binding × Option String)) : Option String :=
  (latest? (.plain "class") history).getD initial

/-- What an element with a class has become by bindings of it: it remembers the last value of each class that is toggled,
and its class has the words of the base with these values applied to them. -/
structure Follows (initial : Option String) (history : List (Binding × Option String)) (node : Node η Property) : Prop where
  words : ∀ toggle ∈ ((togglesIn node.properties).getD {}).classes, IsWord toggle.1
  once : (((togglesIn node.properties).getD {}).classes.map Prod.fst).Nodup
  remembered : ∀ name, valueUnder? ((togglesIn node.properties).getD {}).classes name =
    (latest? (.toggle name) history).map Option.isSome
  shown : ∀ word, word ∈ classesIn node.attributes ↔
    word ∈ wordsOf ((classBase initial history).getD "") ∧ latest? (.toggle word) history ≠ some none ∨
      ∃ text, latest? (.toggle word) history = some (some text)
  normal : ((togglesIn node.properties).getD {}).classes ≠ [] →
    valueUnder? node.attributes "class" = classText (classesIn node.attributes)

theorem Follows.start (fresh : ((togglesIn node.properties).getD {}).classes = []) :
    Follows (valueUnder? node.attributes "class") [] node where
  words := by simp [fresh]
  once := by simp [fresh]
  remembered := fun name => by
    rw [fresh]
    rfl
  shown := fun word => by
    rw [classesIn_eq]
    simp [latest?, classBase]
  normal := fun toggled => absurd fresh toggled

theorem latest?_toggle_of_present {toggles : List (String × Bool)} {word : String}
    (same : valueUnder? toggles word = (latest? (.toggle word) history).map isSome) :
    (valueUnder? toggles word ≠ some false ↔ latest? (.toggle word) history ≠ some none) ∧
      (valueUnder? toggles word = some true ↔ ∃ text, latest? (.toggle word) history = some (some text)) := by
  rw [same]
  cases latest? (.toggle word) history with
  | none => simp
  | some value => cases value <;> simp

theorem mem_foldl_latest {toggles : List (String × Bool)} (once : (toggles.map Prod.fst).Nodup)
    (listed : ∀ name, valueUnder? toggles name = (latest? (.toggle name) history).map isSome) {names : List String}
    {word : String} :
    word ∈ toggles.foldl (fun names toggle => toggled names toggle.1 toggle.2) names ↔
      word ∈ names ∧ latest? (.toggle word) history ≠ some none ∨
        ∃ text, latest? (.toggle word) history = some (some text) := by
  obtain ⟨absent, present⟩ := latest?_toggle_of_present (listed word)
  rw [mem_foldl_toggled once, absent, present]

theorem Follows.step {initial : Option String} {history : List (Binding × Option String)} {doc : Document η Property}
    {n : NodeId} {node : Node η Property} (follows : Follows initial history node) (found : doc.node? n = some node)
    {step : Binding × Option String} (ofClass : OfClass step.1) :
    ∃ after, (step.1.apply n step.2 doc).node? n = some after ∧ Follows initial (history ++ [step]) after := by
  obtain ⟨_, value⟩ := step
  rcases ofClass with rfl | ⟨name, word, rfl⟩
  · have same : ∀ name, latest? (.toggle name) (history ++ [(.plain "class", value)]) = latest? (.toggle name) history :=
      fun name => (latest?_append _ _ _).trans (if_neg nofun)
    have base : classBase initial (history ++ [(.plain "class", value)]) = value := by
      rw [classBase, latest?_append, if_pos rfl]
      rfl
    have names := classesIn_bindAttributeIn follows.words value node.attributes
    refine ⟨_, (edited_bindAttribute_written found "class" value).result, follows.words, follows.once, ?_, ?_, ?_⟩
    · exact fun name => (follows.remembered name).trans (by rw [same])
    · intro word
      dsimp only
      rw [names, mem_foldl_latest follows.once follows.remembered, base, same]
    · intro some
      dsimp only at some ⊢
      rw [names]
      cases remembered : togglesIn node.properties with
      | none => exact absurd (by rw [remembered]; rfl) some
      | some =>
        have words := follows.words
        rw [remembered] at words
        exact valueUnder?_bindAttributeIn_class words value node.attributes
  · have base : classBase initial (history ++ [(.toggle name, value)]) = classBase initial history := by
      rw [classBase, latest?_append, if_neg nofun]
      rfl
    have latest : ∀ other, latest? (.toggle other) (history ++ [(.toggle name, value)]) =
        if other = name then some value else latest? (.toggle other) history := by
      intro other
      rw [latest?_append]
      by_cases same : other = name
      · rw [if_pos same, if_pos (by rw [same])]
      · rw [if_neg same, if_neg fun h => same (Binding.toggle.inj h).symm]
    have kept : ((togglesIn (rememberIn (fun toggles => { toggles with classes := putEntry name value.isSome toggles.classes })
        node.properties)).getD {}).classes = putEntry name value.isSome ((togglesIn node.properties).getD {}).classes := by
      rw [togglesIn_rememberIn]
      rfl
    have words : ∀ w ∈ toggled (classesIn node.attributes) name value.isSome, IsWord w :=
      isWord_of_mem_toggled (fun _ => isWord_of_mem_classesIn) word
    have names : classesIn (withAttribute "class" (classText (toggled (classesIn node.attributes) name value.isSome))
        node.attributes) = toggled (classesIn node.attributes) name value.isSome := by
      rw [classesIn_eq, valueUnder?_withAttribute, if_pos rfl, wordsOf_classText words]
    refine ⟨_, (edited_bindClass found word value.isSome).result, ?_, ?_, ?_, ?_, ?_⟩
    · intro toggle mem
      rw [kept] at mem
      rcases mem_putEntry mem with before | rfl
      · exact follows.words toggle before
      · exact word
    · rw [kept]
      exact nodup_keys_putEntry follows.once name value.isSome
    · intro other
      rw [kept, valueUnder?_putEntry, latest, follows.remembered]
      split <;> rfl
    · intro other
      dsimp only
      rw [names, mem_toggled, follows.shown, base, latest]
      by_cases same : other = name
      · cases value <;> simp [same]
      · simp [same]
    · intro some
      dsimp only
      rw [names, valueUnder?_withAttribute, if_pos rfl]

theorem Follows.applyAll {initial : Option String} {before : List (Binding × Option String)}
    (follows : Follows initial before node) (found : doc.node? n = some node) (ofClass : ∀ step ∈ history, OfClass step.1) :
    ∃ after, (applyAll n history doc).node? n = some after ∧ Follows initial (before ++ history) after := by
  induction history generalizing before doc node with
  | nil => exact ⟨node, found, by rwa [append_nil]⟩
  | cons step _ ih =>
    obtain ⟨_, there, first⟩ := follows.step found (ofClass step mem_cons_self)
    obtain ⟨after, result, last⟩ := ih first there fun other mem => ofClass other (mem_cons_of_mem step mem)
    exact ⟨after, result, by rwa [append_assoc, singleton_append] at last⟩

theorem mem_of_latest? {binding : Binding} {value : Option String} (last : latest? binding history = some value) :
    (binding, value) ∈ history := by
  obtain ⟨⟨other, _⟩, found, rfl⟩ := map_eq_some_iff.mp last
  have same : other = binding := by simpa using find?_some found
  exact same ▸ mem_reverse.mp (mem_of_find?_eq_some found)

theorem isSome_latest? {binding : Binding} {value : Option String} (mem : (binding, value) ∈ history) :
    (latest? binding history).isSome = true := by
  rw [latest?, isSome_map, find?_isSome]
  exact ⟨(binding, value), mem_reverse.mpr mem, by simp⟩

/-- Classes that are toggled one after the other, each with its value. -/
def togglings (toggles : List (String × Option String)) : List (Binding × Option String) :=
  toggles.map fun toggle => (.toggle toggle.1, toggle.2)

theorem find?_togglings (toggles : List (String × Option String)) :
    (togglings toggles).reverse.find? (fun step => decide (step.1 = .plain "class")) = none := by
  refine find?_eq_none.mpr fun step mem => ?_
  obtain ⟨_, -, rfl⟩ := mem_map.mp (mem_reverse.mp mem)
  exact decide_eq_true_iff.not.mpr nofun

theorem classBase_togglings (initial : Option String) (toggles : List (String × Option String)) :
    classBase initial (togglings toggles) = initial := by
  rw [classBase, latest?, find?_togglings]
  rfl

theorem classBase_cons_togglings (initial value : Option String) (toggles : List (String × Option String)) :
    classBase initial ((.plain "class", value) :: togglings toggles) = value := by
  rw [classBase, latest?, reverse_cons, find?_append, find?_togglings]
  rfl

def presences (toggles : List (String × Option String)) : List (String × Bool) :=
  toggles.map fun toggle => (toggle.1, toggle.2.isSome)

theorem attribute?_applyAll_togglings (found : doc.node? n = some node) {toggles : List (String × Option String)}
    (words : ∀ toggle ∈ toggles, IsWord toggle.1) (some : toggles ≠ []) {base : Option String}
    (names : classesIn node.attributes = wordsOf (base.getD "")) :
    (applyAll n (togglings toggles) doc).attribute? n "class" = mergedClass base (presences toggles) := by
  have run : Turns n "class"
      (toggles.foldl fun value toggle => classText (toggled (wordsOf (value.getD "")) toggle.1 toggle.2.isSome))
      fun (doc : Document η Property) => toggles.foldl (fun doc toggle => bindClass doc n toggle.1 toggle.2.isSome) doc :=
    turns_foldl fun toggle mem => turns_bindClass (words toggle mem) toggle.2.isSome
  obtain ⟨_, edited, shown⟩ := run found
  have present : ∀ toggle ∈ presences toggles, IsWord toggle.1 := by
    intro toggle mem
    obtain ⟨given, member, rfl⟩ := mem_map.mp mem
    exact words given member
  have merged := foldl_toggles present (valueUnder? node.attributes "class")
  rw [if_neg (by simpa [presences] using some), presences, foldl_map] at merged
  have applied : applyAll n (togglings toggles) doc =
      toggles.foldl (fun doc toggle => bindClass doc n toggle.1 toggle.2.isSome) doc := by
    rw [applyAll, togglings, foldl_map]
    rfl
  rw [applied, attribute?_of_node? edited.result]
  refine (shown.trans merged).trans ?_
  rw [mergedClass, ← classesIn_eq, names]
  rfl

theorem attribute?_applyAll_base (found : doc.node? n = some node) (fresh : ((togglesIn node.properties).getD {}).classes = [])
    {toggles : List (String × Option String)} (words : ∀ toggle ∈ toggles, IsWord toggle.1) (some : toggles ≠ [])
    (value : Option String) :
    (applyAll n ((.plain "class", value) :: togglings toggles) doc).attribute? n "class" =
      mergedClass value (presences toggles) := by
  refine attribute?_applyAll_togglings (edited_bindAttribute_written found "class" value).result words some ?_
  dsimp only
  rw [classesIn_bindAttributeIn (by simp [fresh]), fresh]
  rfl

/-- However often and in whatever order the class of an element is bound as a whole and its classes are toggled, it
shows the words of the last base and those that are toggled on last, without those that are toggled off. It is there
exactly when it has words, and the server prints the same ones, also letter by letter if each class is toggled once
behind the base. -/
theorem class_shows_last_values {doc : Document η Property} {n : NodeId} {node : Node η Property}
    (found : doc.node? n = some node) (fresh : ((togglesIn node.properties).getD {}).classes = [])
    {history : List (Binding × Option String)} (ofClass : ∀ step ∈ history, OfClass step.1)
    (toggled : ∃ name value, (.toggle name, value) ∈ history) :
    let base := classBase (doc.attribute? n "class") history
    let shown := (applyAll n history doc).attribute? n "class"
    (∀ word, word ∈ wordsOf (shown.getD "") ↔
      word ∈ wordsOf (base.getD "") ∧ latest? (.toggle word) history ≠ some none ∨
        ∃ text, latest? (.toggle word) history = some (some text)) ∧
    (shown = none ↔ ∀ word, word ∉ wordsOf (shown.getD "")) ∧
    (∀ tag toggles, ReadableTag tag → (toggles.map Prod.fst).Nodup →
      (∀ name, valueUnder? toggles name = (latest? (.toggle name) history).map Option.isSome) →
      ∃ printed, readBack? tag "class" (classesMarkup base toggles) = some printed ∧ (printed = none ↔ shown = none) ∧
        ∀ word, word ∈ wordsOf (printed.getD "") ↔ word ∈ wordsOf (shown.getD "")) ∧
    (∀ tag toggles, ReadableTag tag →
      history = togglings toggles ∨ (∃ value, history = (.plain "class", value) :: togglings toggles) →
      readBack? tag "class" (classesMarkup base (presences toggles)) = some shown) := by
  intro base shown
  have initial : doc.attribute? n "class" = valueUnder? node.attributes "class" := attribute?_of_node? found "class"
  obtain ⟨after, result, follows⟩ := (Follows.start fresh).applyAll found ofClass
  rw [nil_append, ← initial] at follows
  have names : wordsOf (shown.getD "") = classesIn after.attributes := by
    rw [classesIn_eq, ← attribute?_of_node? result]
  have shows : ∀ word, word ∈ wordsOf (shown.getD "") ↔
      word ∈ wordsOf (base.getD "") ∧ latest? (.toggle word) history ≠ some none ∨
        ∃ text, latest? (.toggle word) history = some (some text) := fun word => names ▸ follows.shown word
  have normal : shown = classText (wordsOf (shown.getD "")) := by
    obtain ⟨name, value, inside⟩ := toggled
    have known := congrArg Option.isSome (follows.remembered name)
    rw [Option.isSome_map, isSome_latest? inside] at known
    have some : ((togglesIn after.properties).getD {}).classes ≠ [] := by
      intro empty
      rw [empty] at known
      cases known
    rw [names]
    exact (attribute?_of_node? result "class").trans (follows.normal some)
  have absent : ∀ names, classText names = none ↔ ∀ word, word ∉ names := by
    intro names
    rw [← eq_nil_iff_forall_not_mem]
    by_cases empty : names = [] <;> simp [classText, empty]
  refine ⟨shows, ?_, ?_, ?_⟩
  · rw [← absent, ← normal]
  · intro tag toggles readable once listed
    have merged : ∀ word, word ∈ toggles.foldl (fun names toggle => Document.toggled names toggle.1 toggle.2)
        (wordsOf (base.getD "")) ↔ word ∈ wordsOf (shown.getD "") := fun word =>
      (mem_foldl_latest once listed).trans (shows word).symm
    refine ⟨_, readBack?_classes readable base toggles, ?_, fun word => ?_⟩
    · rw [normal]
      exact ((absent _).trans (forall_congr' fun word => not_congr (merged word))).trans (absent _).symm
    · have words : ∀ toggle ∈ toggles, IsWord toggle.1 := by
        intro toggle inside
        have named : (valueUnder? toggles toggle.1).isSome = true := by
          rw [valueUnder?, Option.isSome_map, find?_isSome]
          exact ⟨toggle, inside, by simp⟩
        rw [listed, Option.isSome_map] at named
        obtain ⟨value, last⟩ := Option.isSome_iff_exists.mp named
        rcases ofClass _ (mem_of_latest? last) with whole | ⟨name, word, same⟩
        · cases whole
        · exact Binding.toggle.inj same ▸ word
      rw [mergedClass, wordsOf_classText (isWord_of_mem_foldl words fun _ => isWord_of_mem_wordsOf)]
      exact merged word
  · intro tag toggles readable inOrder
    rw [readBack?_classes readable]
    have words : togglings toggles ⊆ history → ∀ toggle ∈ toggles, IsWord toggle.1 := by
      intro within toggle inside
      rcases ofClass _ (within (mem_map_of_mem inside)) with whole | ⟨name, word, same⟩
      · cases whole
      · exact Binding.toggle.inj same ▸ word
    have some : toggles ≠ [] := by
      rintro rfl
      obtain ⟨name, value, inside⟩ := toggled
      rcases inOrder with same | ⟨whole, same⟩ <;> simp [same, togglings] at inside
    rcases inOrder with rfl | ⟨value, rfl⟩
    · have known : classesIn node.attributes = wordsOf (base.getD "") := by
        rw [classesIn_eq, ← initial, ← classBase_togglings (doc.attribute? n "class") toggles]
      exact congrArg Option.some (attribute?_applyAll_togglings found (words fun _ => id) some known).symm
    · have whole : base = value := classBase_cons_togglings _ _ _
      rw [whole]
      exact congrArg Option.some (attribute?_applyAll_base found fresh (words (subset_cons_self _ _)) some value).symm

/-- Two classes that are switched on and off around another base. -/
def switched : List (Binding × Option String) :=
  [(.toggle "b", none), (.plain "class", some " c  b "), (.toggle "d", some ""), (.toggle "b", some "x"), (.toggle "d", none)]

theorem class_shows_last_values_switched :
    let shown := (applyAll 0 switched (alone [("class", "a b")])).attribute? 0 "class"
    shown = some "c b" ∧
      (∀ word, word ∈ wordsOf (shown.getD "") ↔ word ∈ wordsOf " c  b " ∧ latest? (.toggle word) switched ≠ some none ∨
        ∃ text, latest? (.toggle word) switched = some (some text)) ∧
      ∃ printed, readBack? "p" "class" (classesMarkup (some " c  b ") [("d", false), ("b", true)]) = some printed ∧
        ∀ word, word ∈ wordsOf (printed.getD "") ↔ word ∈ wordsOf (shown.getD "") := by
  have ofClass : ∀ step ∈ switched, OfClass step.1 := by
    have words : IsWord "b" ∧ IsWord "d" := ⟨by decide, by decide⟩
    simp [switched, OfClass, words]
  have listed : ∀ name, valueUnder? [("d", false), ("b", true)] name = (latest? (.toggle name) switched).map isSome := by
    intro name
    by_cases first : name = "d"
    · subst first
      rfl
    · by_cases second : name = "b"
      · subst second
        rfl
      · have apart : ¬"d" = name ∧ ¬"b" = name := ⟨fun h => first h.symm, fun h => second h.symm⟩
        simp [valueUnder?, latest?, switched, apart]
  have found : (alone [("class", "a b")]).node? 0 = some { kind := .element "p" false, attributes := [("class", "a b")] } := rfl
  obtain ⟨shows, -, printed, -⟩ := class_shows_last_values found rfl ofClass ⟨"b", none, mem_cons_self⟩
  refine ⟨by decide +kernel, shows, ?_⟩
  obtain ⟨read, same, -, words⟩ := printed "p" [("d", false), ("b", true)] readable_label (by decide) listed
  exact ⟨read, same, words⟩

end Histories

section Declarations

variable {other name : String}

/-- Declarations with one property set or taken away as the server does it, which takes away the first of a name only. -/
def printedDeclared (declarations : Style.Declarations) (name : String) (value : Option String) : Style.Declarations :=
  match value with
  | some value => putEntry name value declarations
  | none => removeFirst name declarations

theorem mergedStyle_printed (base : Option String) (properties : List (String × Option String)) :
    mergedStyle base properties = styleText (properties.foldl
      (fun declarations property => printedDeclared declarations property.1 property.2) (parse (base.getD ""))) := rfl

def times (name : String) (declarations : Style.Declarations) : Nat := (declarations.map Prod.fst).count name

theorem times_cons (name : String) (entry : String × String) (declarations : Style.Declarations) :
    times name (entry :: declarations) = times name declarations + if entry.1 = name then 1 else 0 := by
  rw [times, map_cons, count_cons]
  simp [times]

theorem times_putEntry_of_ne (apart : other ≠ name) (value : String) (declarations : Style.Declarations) :
    times name (putEntry other value declarations) = times name declarations := by
  induction declarations with
  | nil => simp [putEntry, times, apart]
  | cons _ _ ih =>
    rw [putEntry]
    split
    · rename_i here
      rw [times_cons, times_cons, here]
    · rw [times_cons, times_cons, ih]

theorem times_removeFirst_of_ne (apart : other ≠ name) (declarations : Style.Declarations) :
    times name (removeFirst other declarations) = times name declarations := by
  induction declarations with
  | nil => rfl
  | cons _ _ ih =>
    rw [removeFirst]
    split
    · rename_i here
      rw [times_cons, here, if_neg apart]
      rfl
    · rw [times_cons, times_cons, ih]

theorem times_removeFirst_same (name : String) (declarations : Style.Declarations) :
    times name (removeFirst name declarations) = times name declarations - 1 := by
  induction declarations with
  | nil => rfl
  | cons _ _ ih =>
    rw [removeFirst]
    split
    · rename_i here
      rw [times_cons, if_pos here]
      rfl
    · rename_i apart
      rw [times_cons, times_cons, if_neg apart, ih]
      rfl

theorem times_filter_of_ne (apart : other ≠ name) (declarations : Style.Declarations) :
    times name (declarations.filter (·.1 != other)) = times name declarations := by
  induction declarations with
  | nil => rfl
  | cons entry _ ih =>
    rw [filter_cons]
    split
    · rw [times_cons, times_cons, ih]
    · rename_i here
      have same : entry.1 = other := by simpa using here
      rw [times_cons, same, if_neg apart]
      exact ih

theorem times_filter_same (name : String) (declarations : Style.Declarations) :
    times name (declarations.filter (·.1 != name)) = 0 := by
  refine count_eq_zero.mpr fun mem => ?_
  obtain ⟨_, kept, same⟩ := mem_map.mp mem
  simpa [same] using of_mem_filter kept

theorem times_printedDeclared (apart : other ≠ name) (value : Option String) (declarations : Style.Declarations) :
    times name (printedDeclared declarations other value) = times name declarations := by
  cases value with
  | none => exact times_removeFirst_of_ne apart declarations
  | some text => exact times_putEntry_of_ne apart text declarations

theorem times_declared (apart : other ≠ name) (value : Option String) (declarations : Style.Declarations) :
    times name (declared declarations other value) = times name declarations := by
  cases value with
  | none => exact times_filter_of_ne apart declarations
  | some text => exact times_putEntry_of_ne apart text declarations

section Folds

variable (step : Style.Declarations → String → Option String → Style.Declarations)

theorem times_foldl (apart : ∀ {name other}, other ≠ name → ∀ value declarations,
      times name (step declarations other value) = times name declarations)
    {properties : List (String × Option String)} {name : String} (absent : name ∉ properties.map Prod.fst)
    (declarations : Style.Declarations) :
    times name (properties.foldl (fun declarations property => step declarations property.1 property.2) declarations) =
      times name declarations := by
  induction properties generalizing declarations with
  | nil => rfl
  | cons _ _ ih =>
    rw [map_cons, mem_cons, not_or] at absent
    rw [foldl_cons, ih absent.2, apart fun same => absent.1 same.symm]

theorem times_foldl_removed (apart : ∀ {name other}, other ≠ name → ∀ value declarations,
      times name (step declarations other value) = times name declarations) (left : Nat → Nat)
    (removed : ∀ name declarations, times name (step declarations name none) = left (times name declarations))
    {properties : List (String × Option String)} (distinct : (properties.map Prod.fst).Nodup) {name : String}
    (mem : (name, none) ∈ properties) (declarations : Style.Declarations) :
    times name (properties.foldl (fun declarations property => step declarations property.1 property.2) declarations) =
      left (times name declarations) := by
  induction properties generalizing declarations with
  | nil => cases mem
  | cons property _ ih =>
    obtain ⟨absent, distinct⟩ := nodup_cons.mp distinct
    rw [foldl_cons]
    rcases mem_cons.mp mem with rfl | later
    · rw [times_foldl step apart absent]
      exact removed name declarations
    · have other : property.1 ≠ name := fun same => absent (mem_map.mpr ⟨_, later, same.symm⟩)
      rw [ih distinct later, apart other]

end Folds

theorem foldl_printedDeclared_iff {properties : List (String × Option String)} (distinct : (properties.map Prod.fst).Nodup)
    (declarations : Style.Declarations) :
    properties.foldl (fun declarations property => printedDeclared declarations property.1 property.2) declarations =
        properties.foldl (fun declarations property => declared declarations property.1 property.2) declarations ↔
      ∀ name, (name, none) ∈ properties → times name declarations ≤ 1 := by
  constructor
  · intro same name mem
    have printed := times_foldl_removed printedDeclared times_printedDeclared (· - 1) times_removeFirst_same distinct
      mem declarations
    have set := times_foldl_removed declared times_declared (fun _ => 0) times_filter_same distinct mem
      declarations
    rw [same, set] at printed
    omega
  · intro once
    induction properties generalizing declarations with
    | nil => rfl
    | cons property _ ih =>
      obtain ⟨name, value⟩ := property
      obtain ⟨absent, distinct⟩ := nodup_cons.mp distinct
      rw [foldl_cons, foldl_cons]
      have first : printedDeclared declarations name value = declared declarations name value := by
        cases value with
        | none => exact removeFirst_eq (once name mem_cons_self)
        | some => rfl
      rw [first]
      refine ih distinct _ fun other mem => ?_
      have apart : name ≠ other := fun same => absent (mem_map.mpr ⟨_, mem, same.symm⟩)
      exact (times_declared apart value declarations).trans_le (once other (mem_cons_of_mem _ mem))

end Declarations

section Styled

variable {η : Type} {declarations : Style.Declarations}

theorem mem_of_mem_removeFirst {name : String} {entry : String × String} (mem : entry ∈ removeFirst name declarations) :
    entry ∈ declarations := by
  induction declarations with
  | nil => cases mem
  | cons _ _ ih =>
    rw [removeFirst] at mem
    split at mem
    · exact mem_cons_of_mem _ mem
    · rcases mem_cons.mp mem with rfl | later
      · exact mem_cons_self
      · exact mem_cons_of_mem _ (ih later)

theorem tidy_printedDeclared (tidy : Style.Tidy declarations) {name : String} (tidyName : Style.TidyName name)
    {value : Option String} (tidyValue : ∀ text ∈ value, Style.TidyValue text) :
    Style.Tidy (printedDeclared declarations name value) := by
  cases value with
  | none => exact fun entry mem => tidy entry (mem_of_mem_removeFirst mem)
  | some =>
    have fine := tidy_declared tidy tidyName tidyValue
    exact fine

theorem styleText_inj {one other : Style.Declarations} (tidy : Style.Tidy one) (tidyOther : Style.Tidy other) :
    styleText one = styleText other ↔ one = other := by
  refine ⟨fun same => ?_, congrArg styleText⟩
  rw [← parse_styleText tidy, same, parse_styleText tidyOther]

/-- Names and values of properties that are read back as they are written. -/
def TidyProperties (properties : List (String × Option String)) : Prop :=
  ∀ property ∈ properties, Style.TidyName property.1 ∧ ∀ text ∈ property.2, Style.TidyValue text

theorem tidy_foldl {step : Style.Declarations → String → Option String → Style.Declarations}
    (kept : ∀ {declarations : Style.Declarations}, Style.Tidy declarations → ∀ {name : String}, Style.TidyName name →
      ∀ {value : Option String}, (∀ text ∈ value, Style.TidyValue text) → Style.Tidy (step declarations name value))
    {properties : List (String × Option String)} (tidy : TidyProperties properties) (start : Style.Tidy declarations) :
    Style.Tidy (properties.foldl (fun declarations property => step declarations property.1 property.2) declarations) := by
  induction properties generalizing declarations with
  | nil => exact start
  | cons property _ ih =>
    obtain ⟨tidyName, tidyValue⟩ := tidy property mem_cons_self
    exact ih (fun other mem => tidy other (mem_cons_of_mem property mem)) (kept start tidyName tidyValue)

/-- Properties that are set one after the other, each with its value. -/
def stylings (properties : List (String × Option String)) : List (Binding × Option String) :=
  properties.map fun property => (.style property.1, property.2)

theorem attribute?_applyAll_stylings {doc : Document η Property} {n : NodeId} {node : Node η Property}
    (found : doc.node? n = some node) {properties : List (String × Option String)} (tidy : TidyProperties properties) :
    (applyAll n (stylings properties) doc).attribute? n "style" =
      if properties.isEmpty then valueUnder? node.attributes "style"
      else styleText (properties.foldl (fun declarations property => declared declarations property.1 property.2)
        (parse ((valueUnder? node.attributes "style").getD ""))) := by
  have run : Turns n "style"
      (properties.foldl fun old property => styleText (declared (parse (old.getD "")) property.1 property.2))
      fun (doc : Document η Property) => properties.foldl (fun doc property => bindStyle doc n property.1 property.2) doc :=
    turns_foldl fun property mem => turns_bindStyle (tidy property mem).1 (tidy property mem).2
  obtain ⟨_, edited, shown⟩ := run found
  have rewritten := foldl_rewritten_from parse styleText
    (fun declarations (property : String × Option String) => declared declarations property.1 property.2) Style.Tidy
    (fun _ fine => parse_styleText fine)
    (fun _ fine property mem => tidy_declared fine (tidy property mem).1 (tidy property mem).2)
    (tidy_parse ((valueUnder? node.attributes "style").getD ""))
  have applied : applyAll n (stylings properties) doc =
      properties.foldl (fun doc property => bindStyle doc n property.1 property.2) doc := by
    rw [applyAll, stylings, foldl_map]
    rfl
  rw [applied, attribute?_of_node? edited.result]
  exact shown.trans rewritten

theorem valueUnder?_bindAttributeIn_style {toggles : Option Toggles} (fresh : (toggles.getD {}).styles = [])
    (base : Option String) (attrs : Attributes) :
    valueUnder? (bindAttributeIn "style" base toggles attrs) "style" =
      if toggles = none then base else styleText (parse (base.getD "")) := by
  cases toggles with
  | none =>
    rw [if_pos rfl, bindAttributeIn, valueUnder?_withAttribute, if_pos rfl]
  | some =>
    rw [getD_some] at fresh
    have set : valueUnder? (withAttribute "style" base attrs) "style" = base := by
      rw [valueUnder?_withAttribute, if_pos rfl]
    have other : ¬"style" = "class" := by decide
    unfold bindAttributeIn normalizeIn
    dsimp only
    rw [if_neg other, if_pos rfl, fresh, foldl_nil, set, if_neg nofun]
    cases base with
    | none => exact set
    | some text =>
      dsimp only
      rw [valueUnder?_withAttribute, if_pos rfl, getD_some, styleText_eq (tidy_parse text)]
      rfl

/-- Binding a style as a whole and then its properties one by one shows what the server prints of them, read back, exactly
when no property that is taken away is declared twice in the base. With no property at all the server writes the base anew,
and an element where nothing is remembered keeps it as it is. -/
theorem styles_agree_iff {doc : Document η Property} {n : NodeId} {node : Node η Property} (found : doc.node? n = some node)
    (fresh : ((togglesIn node.properties).getD {}).styles = []) {tag : String} (readable : ReadableTag tag)
    (base : Option String) {properties : List (String × Option String)} (distinct : (properties.map Prod.fst).Nodup)
    (tidy : TidyProperties properties) :
    readBack? tag "style" (stylesMarkup base properties) =
        some ((applyAll n ((.plain "style", base) :: stylings properties) doc).attribute? n "style") ↔
      (∀ name, (name, none) ∈ properties → times name (Style.parse (base.getD "")) ≤ 1) ∧
        (properties = [] → togglesIn node.properties = none → styleText (Style.parse (base.getD "")) = base) := by
  have whole := edited_bindAttribute_written found "style" base
  have set := valueUnder?_bindAttributeIn_style fresh base node.attributes
  have shown := attribute?_applyAll_stylings whole.result tidy
  dsimp only at shown
  rw [set] at shown
  have parsed : Style.parse ((if togglesIn node.properties = none then base else styleText (Style.parse (base.getD ""))).getD "") =
      Style.parse (base.getD "") := by
    split
    · rfl
    · exact parse_styleText (Style.tidy_parse _)
  rw [parsed] at shown
  have applied : applyAll n ((.plain "style", base) :: stylings properties) doc =
      applyAll n (stylings properties) (bindAttribute doc n "style" base) := rfl
  rw [readBack?_styles readable, applied, shown, mergedStyle_printed, some_inj]
  have start := Style.tidy_parse (base.getD "")
  cases properties with
  | nil =>
    by_cases none : togglesIn node.properties = none <;> simp [none]
  | cons property properties =>
    rw [isEmpty_cons, if_neg Bool.false_ne_true, styleText_inj (tidy_foldl tidy_printedDeclared tidy start)
      (tidy_foldl tidy_declared tidy start), foldl_printedDeclared_iff distinct]
    exact (and_iff_left nofun).symm

theorem styles_agree_iff_width :
    readBack? "p" "style" (stylesMarkup (some "color: red; width: 1px; color: blue") [("width", none), ("color", some "green")]) =
      some ((applyAll 0 [(.plain "style", some "color: red; width: 1px; color: blue"), (.style "width", none),
        (.style "color", some "green")] (alone [])).attribute? 0 "style") := by
  have found : (alone []).node? 0 = some { kind := .element "p" false, attributes := [] } := rfl
  have tidy : TidyProperties [("width", none), ("color", some "green")] := by
    simp only [TidyProperties, forall_mem_cons]
    exact ⟨⟨by decide, nofun⟩, ⟨by decide, by rintro _ ⟨⟩; decide⟩, nofun⟩
  refine (styles_agree_iff found rfl readable_label (some "color: red; width: 1px; color: blue") (by decide) tidy).mpr ⟨?_, nofun⟩
  rintro name inside
  have same : name = "width" := by simpa using inside
  subst same
  decide

/-- The server takes one of two declarations of a property away, and the client both. -/
theorem repeated_property_left :
    readBack? "p" "style" (stylesMarkup (some "color: red; color: blue") [("color", none)]) = some (some "color: blue;") ∧
      (applyAll 0 [(.plain "style", some "color: red; color: blue"), (.style "color", none)]
        (alone [])).attribute? 0 "style" = none := by
  refine ⟨?_, by decide⟩
  rw [readBack?_styles (show ReadableTag "p" from readable_label)]
  decide

end Styled

end LiveMarkup.Live
