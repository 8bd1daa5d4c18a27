import LiveMarkup.Proofs.ListAttributes

/-!
What is known of an element's attributes is folded into its markup. The markup only ever adds to a class and a style, so
that it says what the same values would make of an element at run time exactly as long as these would only add to them too.
-/

namespace LiveMarkup.Text
open List

theorem wordsFrom_append {c : Char} (blank : isBlank c = true) (pending cs rest : List Char) :
    wordsFrom pending (cs ++ c :: rest) = wordsFrom pending cs ++ wordsFrom [] rest := by
  induction cs generalizing pending with
  | nil =>
    rw [nil_append, wordsFrom.eq_2, if_pos blank, wordsFrom.eq_1]
    split <;> rfl
  | cons d _ ih =>
    rw [cons_append, wordsFrom, wordsFrom]
    split
    · split
      · exact ih []
      · rw [ih [], cons_append]
    · exact ih (d :: pending)

theorem wordsOf_append (first second : String) : wordsOf (first ++ " " ++ second) = wordsOf first ++ wordsOf second := by
  have space : " ".toList = [' '] := rfl
  rw [wordsOf, String.toList_append, String.toList_append, space, append_assoc, singleton_append, words,
    wordsFrom_append (by decide), map_append]
  rfl

end LiveMarkup.Text

namespace LiveMarkup.Codegen
open Blueprint Document Live Markup Text List StaticAttributes

variable {name : String} {toggles : List (String × Bool)} {entries : List (String × Option String)}

section Adding

/-- No name is among those that are there when its turn comes; the names that are switched on are there from then on. -/
def EachNew : List String → List (String × Bool) → Prop
  | _, [] => True
  | names, (name, present) :: rest => name ∉ names ∧ EachNew (if present then names ++ [name] else names) rest

instance decideEachNew : (names : List String) → (toggles : List (String × Bool)) → Decidable (EachNew names toggles)
  | _, [] => .isTrue trivial
  | names, (name, present) :: rest =>
    have := decideEachNew (if present then names ++ [name] else names) rest
    inferInstanceAs (Decidable (name ∉ names ∧ EachNew (if present then names ++ [name] else names) rest))

variable {α β : Type} (step : List β → α → List β) (gain : α → List β) (names : List β → List String) (named : α → String × Bool)

theorem foldl_adds_iff (free : ∀ list item, (named item).1 ∉ names list → step list item = list ++ gain item)
    (short : ∀ list item, (named item).1 ∈ names list → (step list item).length < list.length + (gain item).length)
    (grows : ∀ list item, names (list ++ gain item) =
      if (named item).2 then names list ++ [(named item).1] else names list) (list : List β) (items : List α) :
    items.foldl step list = list ++ items.flatMap gain ↔ EachNew (names list) (items.map named) := by
  have bounded : ∀ (items : List α) (list : List β),
      (items.foldl step list).length ≤ list.length + (items.flatMap gain).length := by
    intro items
    induction items with
    | nil => simp
    | cons item _ ih =>
      intro list
      have later := ih (step list item)
      have here : (step list item).length ≤ list.length + (gain item).length := by
        by_cases met : (named item).1 ∈ names list
        · exact (short list item met).le
        · rw [free list item met, length_append]
      rw [foldl_cons, flatMap_cons, length_append]
      omega
  induction items generalizing list with
  | nil => simp [EachNew]
  | cons item items ih =>
    rw [map_cons, EachNew, foldl_cons, flatMap_cons]
    by_cases met : (named item).1 ∈ names list
    · refine iff_of_false (fun same => ?_) fun both => both.1 met
      have total := congrArg length same
      have most := bounded items (step list item)
      have fewer := short list item met
      simp only [length_append] at total
      omega
    · have later := ih (list ++ gain item)
      rw [grows] at later
      rw [free list item met, ← append_assoc, and_iff_right met]
      exact later

def switchedOn (toggles : List (String × Bool)) : List String := (toggles.filter Prod.snd).map Prod.fst

theorem length_filter_lt {p : α → Bool} {list : List α} {item : α} (mem : item ∈ list) (out : p item = false) :
    (list.filter p).length < list.length :=
  length_filter_lt_length_iff_exists.mpr ⟨item, mem, by simp [out]⟩

theorem foldl_toggled_iff (names : List String) (toggles : List (String × Bool)) :
    toggles.foldl (fun names toggle => toggled names toggle.1 toggle.2) names = names ++ switchedOn toggles ↔
      EachNew names toggles := by
  have gained : switchedOn toggles = toggles.flatMap fun toggle => if toggle.2 then [toggle.1] else [] := by
    rw [flatMap_if (fun toggle : String × Bool => toggle.2 = true) Prod.fst]
    simp [switchedOn]
  have adds := foldl_adds_iff (fun names toggle => toggled names toggle.1 toggle.2)
    (fun toggle : String × Bool => if toggle.2 then [toggle.1] else []) id id
    (fun names (name, present) absent => ?_) (fun names (name, present) mem => ?_) (fun names (name, present) => ?_)
    names toggles
  · rw [gained, adds, map_id]
    rfl
  · cases present with
    | true => simp_all [toggled]
    | false =>
      have kept : ∀ other ∈ names, (other != name) = true := fun other mem => by
        simpa using fun same : other = name => absent (same ▸ mem)
      simpa [toggled] using filter_eq_self.mpr kept
  · cases present with
    | true => simp_all [toggled]
    | false => simpa [toggled] using length_filter_lt mem (by simp : (name != name) = false)
  · cases present <;> simp

theorem putEntry_of_not_mem {entries : List (String × α)} (absent : name ∉ entries.map Prod.fst) (value : α) :
    putEntry name value entries = entries ++ [(name, value)] := by
  induction entries with
  | nil => rfl
  | cons _ _ ih =>
    rw [map_cons, mem_cons, not_or] at absent
    rw [putEntry, if_neg fun same => absent.1 same.symm, ih absent.2]
    rfl

theorem length_putEntry_of_mem {entries : List (String × α)} (mem : name ∈ entries.map Prod.fst) (value : α) :
    (putEntry name value entries).length = entries.length := by
  have keys := congrArg length (keys_putEntry entries name value)
  rw [if_pos mem] at keys
  simpa using keys

def givenValues (properties : List (String × Option String)) : Style.Declarations :=
  properties.filterMap fun property => property.2.map (property.1, ·)

theorem foldl_declared_iff (decls : Style.Declarations) (properties : List (String × Option String)) :
    properties.foldl (fun decls property => declared decls property.1 property.2) decls =
        decls ++ givenValues properties ↔
      EachNew (decls.map Prod.fst) (presences properties) := by
  have adds := foldl_adds_iff (fun decls property => declared decls property.1 property.2)
    (fun property : String × Option String => (property.2.map (property.1, ·)).toList)
    (fun decls : Style.Declarations => decls.map Prod.fst) (fun property => (property.1, property.2.isSome))
    (fun decls (name, value) absent => ?_) (fun decls (name, value) mem => ?_)
    (fun decls (name, value) => ?_) decls properties
  · rw [givenValues, filterMap_eq_flatMap_toList]
    exact adds
  · cases value with
    | some text => exact putEntry_of_not_mem absent text
    | none =>
      have kept : ∀ entry ∈ decls, (entry.1 != name) = true := fun entry mem => by
        simpa using fun same : entry.1 = name => absent (mem_map.mpr ⟨entry, mem, same⟩)
      simpa [declared] using filter_eq_self.mpr kept
  · cases value with
    | some => simp [declared, length_putEntry_of_mem mem]
    | none =>
      obtain ⟨entry, member, same⟩ := mem_map.mp mem
      have out : (fun other : String × String => other.1 != name) entry = false := by simpa using same
      exact length_filter_lt member out
  · cases value <;> simp

end Adding

def foldedClass (base : Option String) (names : List String) : Option String :=
  if names = [] then base
  else some (if base.getD "" = "" then " ".intercalate names else base.getD "" ++ " " ++ " ".intercalate names)

/-- Toggling some classes only adds to a base, and its normal form is how it is written. -/
structure KeepsClass (base : Option String) (toggles : List (String × Bool)) : Prop where
  new : EachNew (wordsOf (base.getD "")) toggles
  normal : normalClass (base.getD "") = base.getD ""
  filled : base = some "" → switchedOn toggles ≠ []

theorem wordsOf_foldedClass (base : Option String) {names : List String} (words : ∀ name ∈ names, IsWord name) :
    wordsOf ((foldedClass base names).getD "") = wordsOf (base.getD "") ++ names := by
  unfold foldedClass
  split
  · rename_i none
    rw [none, append_nil]
  · rw [Option.getD_some]
    split
    · rename_i empty
      rw [empty, wordsOf_intercalate words]
      rfl
    · rw [wordsOf_append, wordsOf_intercalate words]

theorem isWord_of_mem_switchedOn (words : ∀ toggle ∈ toggles, IsWord toggle.1) :
    ∀ name ∈ switchedOn toggles, IsWord name := by
  intro name mem
  obtain ⟨toggle, member, rfl⟩ := mem_map.mp mem
  exact words toggle (mem_of_mem_filter member)

theorem foldedClass_eq_classText_iff (base : Option String) (names : List String) :
    foldedClass base names = classText (wordsOf (base.getD "") ++ names) ↔
      normalClass (base.getD "") = base.getD "" ∧ (base = some "" → names ≠ []) := by
  have known : ∀ word ∈ wordsOf (base.getD ""), IsWord word := fun word mem => isWord_of_mem_wordsOf mem
  unfold foldedClass
  split
  · rename_i none
    rw [none, append_nil, classText_eq known]
    cases base with
    | none => exact iff_of_true rfl ⟨rfl, nofun⟩
    | some text =>
      show some text = (if normalClass text = "" then Option.none else some (normalClass text)) ↔ normalClass text = text ∧ _
      split
      · rename_i empty
        simp [empty]
      · rename_i filled
        simp only [Option.some_inj, ne_eq, not_true_eq_false, imp_false]
        refine ⟨fun same => ⟨same.symm, fun empty => filled ?_⟩, fun both => both.1.symm⟩
        rw [← same, empty]
  · rename_i listed
    have all : classText (wordsOf (base.getD "") ++ names) = some (" ".intercalate (wordsOf (base.getD "") ++ names)) :=
      if_neg fun none => listed (append_eq_nil_iff.mp none).2
    rw [and_iff_left fun _ => listed, all, Option.some_inj]
    split
    · rename_i empty
      rw [empty]
      exact iff_of_true rfl rfl
    · rename_i filled
      by_cases blank : wordsOf (base.getD "") = []
      · refine iff_of_false (fun same => ?_) fun normal => ?_
        · rw [blank, nil_append] at same
          have length := congrArg String.length same
          simp [String.length_append] at length
        · rw [normalClass, blank] at normal
          exact filled normal.symm
      · rw [String.intercalate_append_of_ne_nil blank listed, normalClass]
        constructor
        · intro same
          exact ((String.append_left_inj _).mp ((String.append_left_inj _).mp same)).symm
        · intro normal
          rw [normal]

theorem foldedClass_eq_iff (base : Option String) (words : ∀ toggle ∈ toggles, IsWord toggle.1) :
    foldedClass base (switchedOn toggles) = mergedClass base toggles ↔ KeepsClass base toggles := by
  have known : ∀ word ∈ wordsOf (base.getD ""), IsWord word := fun word mem => isWord_of_mem_wordsOf mem
  have left := isWord_of_mem_foldl words known
  have form := foldedClass_eq_classText_iff base (switchedOn toggles)
  have adds := foldl_toggled_iff (wordsOf (base.getD "")) toggles
  constructor
  · intro same
    have names : toggles.foldl (fun names toggle => toggled names toggle.1 toggle.2) (wordsOf (base.getD "")) =
        wordsOf (base.getD "") ++ switchedOn toggles := by
      rw [← wordsOf_foldedClass base (isWord_of_mem_switchedOn words), same, mergedClass, wordsOf_classText left]
    have written := same
    rw [mergedClass, names] at written
    obtain ⟨normal, filled⟩ := form.mp written
    exact ⟨adds.mp names, normal, filled⟩
  · rintro ⟨new, normal, filled⟩
    rw [form.mpr ⟨normal, filled⟩, mergedClass, adds.mpr new]

def foldedStyle (base : Option String) (written : Style.Declarations) : Option String :=
  if written = [] then base else some (Style.render (Style.parse (base.getD "") ++ written))

/-- Setting some properties only adds what is written of them to a base; with nothing written the normal form of the base is
how it is written. -/
structure KeepsStyle (base : Option String) (properties : List (String × Option String)) (written : Style.Declarations) :
    Prop where
  adds : properties.foldl (fun declarations property => declared declarations property.1 property.2)
    (Style.parse (base.getD "")) = Style.parse (base.getD "") ++ written
  normal : written = [] → styleText (Style.parse (base.getD "")) = base

theorem foldedStyle_eq_iff (base : Option String) {properties : List (String × Option String)}
    (tidy : TidyProperties properties) {written : Style.Declarations} (fine : Style.Tidy written) :
    foldedStyle base written = styleText (properties.foldl
      (fun decls property => declared decls property.1 property.2) (Style.parse (base.getD ""))) ↔
        KeepsStyle base properties written := by
  have start := Style.tidy_parse (base.getD "")
  have left := tidy_foldl tidy_declared tidy start
  have whole : Style.Tidy (Style.parse (base.getD "") ++ written) := fun entry mem =>
    (mem_append.mp mem).elim (start entry) (fine entry)
  unfold foldedStyle
  split
  · rename_i none
    subst none
    constructor
    · intro same
      have read := congrArg (fun text => Style.parse (text.getD "")) same
      rw [parse_styleText left] at read
      exact ⟨(read.symm.trans (append_nil _).symm), fun _ => (congrArg styleText read).trans same.symm⟩
    · rintro ⟨adds, normal⟩
      rw [adds, append_nil, normal rfl]
  · rename_i listed
    have text : styleText (Style.parse (base.getD "") ++ written) =
        some (Style.render (Style.parse (base.getD "") ++ written)) := if_neg (by simp [listed])
    rw [← text, styleText_inj whole left]
    exact ⟨fun same => ⟨same.symm, fun none => absurd none listed⟩, fun keeps => keeps.adds.symm⟩

/-- What a constant is as an attribute: text is as it is, and of the booleans only one that is true is there. -/
def constantText? : Constant → Option String
  | .text text => some text
  | .bool true => some ""
  | .bool false => none

/-- The binding that sets at run time what is known of an attribute. -/
def knownStep? : Attribute → Option (Binding × Option String)
  | .value kind name given _ =>
    (bindingOf? kind name).bind fun binding => given.constant.map fun constant => (binding, constantText? constant)
  | _ => none

def whole? : Binding × Option String → Option (String × Option String)
  | (.plain name, value) => some (name, value)
  | _ => none

def toggle? : Binding × Option String → Option (String × Bool)
  | (.toggle name, value) => some (name, value.isSome)
  | _ => none

def property? : Binding × Option String → Option (String × Option String)
  | (.style name, value) => some (name, value)
  | _ => none

def wholesOf (attributes : List Attribute) : List (String × Option String) := (attributes.filterMap knownStep?).filterMap whole?

/-- The single classes that are known, and whether they are switched on. -/
def togglesOf (attributes : List Attribute) : List (String × Bool) := (attributes.filterMap knownStep?).filterMap toggle?

def propertiesOf (attributes : List Attribute) : List (String × Option String) :=
  (attributes.filterMap knownStep?).filterMap property?

def wholeSteps (attributes : List Attribute) : List (Binding × Option String) :=
  (attributes.filterMap knownStep?).filter fun step => (whole? step).isSome

def partSteps (attributes : List Attribute) : List (Binding × Option String) :=
  (attributes.filterMap knownStep?).filter fun step => (whole? step).isNone

/-- The bindings that set at run time what is known of attributes: whole ones first, and then classes and style properties in
their order. -/
def boundInstead (attributes : List Attribute) : List (Binding × Option String) := wholeSteps attributes ++ partSteps attributes

theorem filterMap_wholeSteps (attributes : List Attribute) : (wholeSteps attributes).filterMap whole? = wholesOf attributes := by
  rw [wholeSteps, filterMap_filter]
  refine filterMap_congr fun step _ => ?_
  split
  · rfl
  · rename_i part
    exact (Option.not_isSome_iff_eq_none.mp part).symm

theorem filterMap_partSteps {α : Type} {item? : Binding × Option String → Option α}
    (none : ∀ name value, item? (.plain name, value) = none) (attributes : List Attribute) :
    (partSteps attributes).filterMap item? = (attributes.filterMap knownStep?).filterMap item? := by
  rw [partSteps, filterMap_filter]
  refine filterMap_congr fun step _ => ?_
  obtain ⟨binding, value⟩ := step
  cases binding with
  | plain name => exact (none name value).symm
  | _ => rfl

section Written

variable {attributes : List Attribute}

def writtenProperty? : Attribute → Option (String × String)
  | .value kind name given _ =>
    match kind, given.constant with
    | .style, some (.text text) => some (name, text)
    | .customProperty, some (.text text) => some (styleName .customProperty name, text)
    | _, _ => none
  | _ => none

theorem field_ofAttributes {β : Type} (field : StaticAttributes → List β) (added : Attribute → List β)
    (each : ∀ statics entry, field (withStatic statics entry) = field statics ++ added entry) (none : field {} = [])
    (attributes : List Attribute) : field (ofAttributes attributes) = attributes.flatMap added := by
  have folded : ∀ statics : StaticAttributes,
      field (attributes.foldl withStatic statics) = field statics ++ attributes.flatMap added := by
    induction attributes with
    | nil => exact fun statics => (append_nil _).symm
    | cons _ _ ih =>
      intro statics
      rw [foldl_cons, ih, each, flatMap_cons, append_assoc]
  have whole := folded {}
  rw [none, nil_append] at whole
  exact whole

theorem classes_ofAttributes (attributes : List Attribute) :
    (ofAttributes attributes).classes = switchedOn (togglesOf attributes) := by
  have gained : switchedOn (togglesOf attributes) =
      attributes.flatMap fun entry => switchedOn ((knownStep? entry).bind toggle?).toList := by
    rw [togglesOf, filterMap_filterMap, switchedOn, filterMap_eq_flatMap_toList, filter_flatMap,
      map_flatMap]
    rfl
  rw [gained]
  refine field_ofAttributes classes _ (fun statics entry => ?_) rfl attributes
  cases entry with
  | value kind _ given =>
    obtain ⟨_, constant, _, _⟩ := given
    cases constant with
    | none => cases kind <;> exact (append_nil _).symm
    | some constant =>
      cases constant with
      | text =>
        cases kind with
        | toggle => rfl
        | _ => exact (append_nil _).symm
      | bool on =>
        cases on with
        | false => cases kind <;> exact (append_nil _).symm
        | true =>
          cases kind with
          | toggle => rfl
          | _ => exact (append_nil _).symm
  | _ => exact (append_nil _).symm

theorem styles_ofAttributes (attributes : List Attribute) :
    (ofAttributes attributes).styles = attributes.filterMap writtenProperty? := by
  rw [filterMap_eq_flatMap_toList]
  refine field_ofAttributes styles _ (fun statics entry => ?_) rfl attributes
  cases entry with
  | value kind _ given =>
    obtain ⟨_, constant, _, _⟩ := given
    cases constant with
    | none => cases kind <;> exact (append_nil _).symm
    | some constant =>
      cases constant with
      | text =>
        cases kind with
        | style => rfl
        | customProperty => rfl
        | _ => exact (append_nil _).symm
      | bool on => cases on <;> cases kind <;> exact (append_nil _).symm
  | _ => exact (append_nil _).symm

theorem wholes_ofAttributes (attributes : List Attribute) :
    (ofAttributes attributes).attributes = givenValues (wholesOf attributes) := by
  rw [attributes_ofAttributes, givenValues, wholesOf, filterMap_filterMap, filterMap_filterMap]
  refine filterMap_congr fun entry _ => ?_
  cases entry with
  | value kind _ given =>
    obtain ⟨_, constant, _, _⟩ := given
    cases constant with
    | none => cases kind <;> rfl
    | some constant =>
      cases constant with
      | text => cases kind <;> rfl
      | bool on => cases on <;> cases kind <;> rfl
  | _ => rfl

theorem keys_wholesOf_sublist (attributes : List Attribute) :
    ((wholesOf attributes).map Prod.fst).Sublist (plainNames attributes) := by
  rw [wholesOf, filterMap_filterMap, plainNames]
  induction attributes with
  | nil => exact .slnil
  | cons entry _ ih =>
    rw [filterMap_cons, filterMap_cons]
    cases entry with
    | value kind name given =>
      obtain ⟨_, constant, _, _⟩ := given
      cases kind with
      | plain =>
        cases constant with
        | none => exact ih.cons name
        | some => exact ih.cons_cons name
      | _ =>
        cases constant with
        | none => exact ih
        | some => exact ih
    | _ => exact ih

theorem valueUnder?_givenValues (once : (entries.map Prod.fst).Nodup) (name : String) :
    valueUnder? (givenValues entries) name = (valueUnder? entries name).join := by
  induction entries with
  | nil => rfl
  | cons entry entries ih =>
    obtain ⟨key, value⟩ := entry
    obtain ⟨absent, once⟩ := nodup_cons.mp once
    have later := ih once
    rw [valueUnder?_cons]
    cases value with
    | some text =>
      show valueUnder? ((key, text) :: givenValues entries) name = _
      rw [valueUnder?_cons, later]
      split <;> rfl
    | none =>
      show valueUnder? (givenValues entries) name = _
      rw [later]
      split
      · rename_i same
        rw [valueUnder?_of_not_mem (same ▸ absent)]
        rfl
      · rfl

theorem valueUnder?_upsert (list : String) (change : String → String) (fresh : String) (entries : Attributes) (name : String) :
    valueUnder? (upsert list change fresh entries) name =
      if name = list then some ((valueUnder? entries list).elim fresh change) else valueUnder? entries name := by
  induction entries with
  | nil =>
    rw [upsert, valueUnder?_cons]
    by_cases same : name = list
    · simp [same, valueUnder?]
    · simp [same, Ne.symm same]
  | cons _ _ ih =>
    rw [upsert]
    split
    · rename_i here
      rw [valueUnder?_cons, valueUnder?_cons, valueUnder?_cons]
      by_cases same : name = list
      · simp [same, here]
      · simp [same, here, Ne.symm same]
    · rename_i apart
      rw [valueUnder?_cons, ih, valueUnder?_cons, valueUnder?_cons]
      by_cases same : name = list
      · simp [same, apart]
      · simp [same]

theorem valueUnder?_merged (once : (plainNames attributes).Nodup) (name : String) :
    valueUnder? (ofAttributes attributes).merged name =
      if name = "class" then foldedClass (valueUnder? (wholesOf attributes) "class").join (switchedOn (togglesOf attributes))
      else if name = "style" then
        foldedStyle (valueUnder? (wholesOf attributes) "style").join (attributes.filterMap writtenProperty?)
      else (valueUnder? (wholesOf attributes) name).join := by
  have whole : ∀ list, valueUnder? (ofAttributes attributes).attributes list =
      (valueUnder? (wholesOf attributes) list).join := fun list => by
    rw [wholes_ofAttributes, valueUnder?_givenValues (once.sublist (keys_wholesOf_sublist attributes))]
  have classed : ∀ classes : List String, ∀ list, valueUnder? (if classes.isEmpty then
        (ofAttributes attributes).attributes
      else upsert "class" (fun base => if base.isEmpty then " ".intercalate classes
          else base ++ " " ++ " ".intercalate classes) (" ".intercalate classes)
        (ofAttributes attributes).attributes) list =
      if list = "class" then foldedClass (valueUnder? (wholesOf attributes) "class").join classes
      else (valueUnder? (wholesOf attributes) list).join := by
    intro classes list
    unfold foldedClass
    split
    · rename_i none
      rw [whole, if_pos (isEmpty_iff.mp none)]
      split
      · rename_i same
        rw [same]
      · rfl
    · rename_i listed
      rw [valueUnder?_upsert, whole, whole, if_neg fun none => listed (isEmpty_iff.mpr none)]
      cases (valueUnder? (wholesOf attributes) "class").join with
      | none => rfl
      | some => simp [String.isEmpty_iff]
  have styled := classed (ofAttributes attributes).classes
  unfold merged
  dsimp only
  rw [styles_ofAttributes]
  rw [classes_ofAttributes] at styled ⊢
  split
  · rename_i none
    have bare : foldedStyle (valueUnder? (wholesOf attributes) "style").join (attributes.filterMap writtenProperty?) =
        (valueUnder? (wholesOf attributes) "style").join := if_pos (isEmpty_iff.mp none)
    rw [styled, bare]
    split
    · rfl
    · split
      · rename_i same
        rw [same]
      · rfl
  · rename_i listed
    have filled : ∀ base, foldedStyle base (attributes.filterMap writtenProperty?) =
        some (Style.render (Style.parse (base.getD "") ++ attributes.filterMap writtenProperty?)) :=
      fun base => if_neg fun none => listed (isEmpty_iff.mpr none)
    have apart : ¬ "style" = "class" := by decide
    rw [valueUnder?_upsert, styled, styled, if_neg apart, filled]
    by_cases same : name = "style"
    · subst same
      rw [if_pos rfl, if_neg apart, if_pos rfl]
      cases (valueUnder? (wholesOf attributes) "style").join with
      | none => rfl
      | some => rfl
    · rw [if_neg same, if_neg same]

end Written

section Bound

variable {η : Type} {n : NodeId} {attributes : List Attribute}

theorem edited_wholes {doc : Document η Property} {node : Document.Node η Property} (found : doc.node? n = some node)
    (fresh : togglesIn node.properties = none) {steps : List (Binding × Option String)}
    (whole : ∀ step ∈ steps, (whole? step).isSome = true) :
    Edited doc (applyAll n steps doc) n node { node with
      attributes := (steps.filterMap whole?).foldl (fun attributes entry => withAttribute entry.1 entry.2 attributes)
        node.attributes } := by
  induction steps generalizing doc node with
  | nil => exact .refl found
  | cons step _ ih =>
    have others := fun other mem => whole other (mem_cons_of_mem step mem)
    obtain ⟨binding, value⟩ := step
    cases binding with
    | plain name =>
      have set := edited_bindAttribute_written found name value
      rw [fresh] at set
      exact set.trans (ih set.result fresh others)
    | _ => cases whole _ mem_cons_self

theorem valueUnder?_foldl_withAttribute (once : (entries.map Prod.fst).Nodup)
    (attributes : Attributes) (name : String) :
    valueUnder? (entries.foldl (fun attributes entry => withAttribute entry.1 entry.2 attributes) attributes) name =
      (valueUnder? entries name).getD (valueUnder? attributes name) := by
  induction entries generalizing attributes with
  | nil => rfl
  | cons entry _ ih =>
    obtain ⟨absent, once⟩ := nodup_cons.mp once
    rw [foldl_cons, ih once, valueUnder?_cons, valueUnder?_withAttribute]
    by_cases same : name = entry.1
    · rw [same, valueUnder?_of_not_mem absent]
      simp
    · rw [if_neg same, if_neg (Ne.symm same)]

theorem turns_applyAll {α : Type} {name : String} {item? : Binding × Option String → Option α}
    {effect : Option String → α → Option String} {steps : List (Binding × Option String)}
    (each : ∀ step ∈ steps, Turns n name (fun value => (item? step).toList.foldl effect value)
      fun (doc : Document η Property) => step.1.apply n step.2 doc) :
    Turns n name (fun value => (steps.filterMap item?).foldl effect value)
      fun (doc : Document η Property) => applyAll n steps doc := by
  intro doc node found
  obtain ⟨after, edited, shown⟩ := turns_foldl each found
  refine ⟨after, edited, shown.trans ?_⟩
  rw [filterMap_eq_flatMap_toList]
  exact foldl_flatMap.symm

theorem attribute?_boundInstead {doc : Document η Property} {node : Document.Node η Property} (found : doc.node? n = some node)
    (bare : node.attributes = []) (fresh : togglesIn node.properties = none) (once : (plainNames attributes).Nodup)
    (words : ∀ toggle ∈ togglesOf attributes, IsWord toggle.1) (tidy : TidyProperties (propertiesOf attributes)) (name : String) :
    (applyAll n (boundInstead attributes) doc).attribute? n name =
      let base := (valueUnder? (wholesOf attributes) name).join
      if name = "class" then
        if (togglesOf attributes).isEmpty then base else mergedClass base (togglesOf attributes)
      else if name = "style" then
        if (propertiesOf attributes).isEmpty then base
        else styleText ((propertiesOf attributes).foldl
          (fun decls property => declared decls property.1 property.2) (Style.parse (base.getD "")))
      else base := by
  have wholes := edited_wholes found fresh fun step (mem : step ∈ wholeSteps attributes) => (mem_filter.mp mem).2
  rw [filterMap_wholeSteps, bare] at wholes
  have base : valueUnder? ((wholesOf attributes).foldl (fun attributes entry => withAttribute entry.1 entry.2 attributes) [])
      name = (valueUnder? (wholesOf attributes) name).join := by
    rw [valueUnder?_foldl_withAttribute (once.sublist (keys_wholesOf_sublist attributes))]
    cases valueUnder? (wholesOf attributes) name <;> rfl
  -- what the bindings of parts make of a value is shown in the end
  have shows : ∀ {effect : Option String → Option String},
      Turns n name effect (fun (doc : Document η Property) => applyAll n (partSteps attributes) doc) →
        (applyAll n (boundInstead attributes) doc).attribute? n name = effect (valueUnder? (wholesOf attributes) name).join := by
    intro effect turns
    obtain ⟨_, edited, shown⟩ := turns wholes.result
    have split : applyAll n (boundInstead attributes) doc =
        applyAll n (partSteps attributes) (applyAll n (wholeSteps attributes) doc) := foldl_append
    rw [split]
    refine (attribute?_of_node? edited.result name).trans (shown.trans ?_)
    exact congrArg effect base
  have parts : ∀ step ∈ partSteps attributes, step ∈ attributes.filterMap knownStep? ∧ whole? step = none := fun step mem =>
    ⟨mem_of_mem_filter mem, by simpa using (mem_filter.mp mem).2⟩
  dsimp only
  split
  · rename_i same
    subst same
    have turns := @turns_applyAll η n _ "class" toggle?
      (fun value toggle => classText (toggled (wordsOf (value.getD "")) toggle.1 toggle.2)) (partSteps attributes) ?_
    · rw [filterMap_partSteps fun _ _ => rfl] at turns
      exact (shows turns).trans (foldl_toggles words _)
    · rintro ⟨binding, value⟩ mem
      obtain ⟨known, part⟩ := parts _ mem
      cases binding with
      | plain => cases part
      | toggle => exact turns_bindClass (words _ (mem_filterMap.mpr ⟨_, known, rfl⟩)) _
      | style property => exact assigns_bindStyle (by decide) property value
  · rename_i notClass
    split
    · rename_i same
      subst same
      have turns := @turns_applyAll η n _ "style" property?
        (fun old property => styleText (declared (Style.parse (old.getD "")) property.1 property.2)) (partSteps attributes) ?_
      · rw [filterMap_partSteps fun _ _ => rfl] at turns
        refine (shows turns).trans ?_
        exact foldl_rewritten_from Style.parse styleText
          (fun decls (property : String × Option String) => declared decls property.1 property.2) Style.Tidy
          (fun _ fine => parse_styleText fine)
          (fun _ fine property mem => tidy_declared fine (tidy property mem).1 (tidy property mem).2) (Style.tidy_parse _)
      · rintro ⟨binding, _⟩ mem
        obtain ⟨known, part⟩ := parts _ mem
        cases binding with
        | plain => cases part
        | toggle toggle => exact assigns_bindClass (by decide) toggle _
        | style =>
          obtain ⟨tidyName, tidyValue⟩ := tidy _ (mem_filterMap.mpr ⟨_, known, rfl⟩)
          exact turns_bindStyle tidyName tidyValue
    · rename_i notStyle
      have turns : Assigns n name ((partSteps attributes).flatMap fun _ => [])
          (fun (doc : Document η Property) => applyAll n (partSteps attributes) doc) := by
        refine assigns_foldl ?_
        rintro ⟨binding, value⟩ mem
        cases binding with
        | plain => cases (parts _ mem).2
        | toggle toggle => exact assigns_bindClass notClass toggle _
        | style property => exact assigns_bindStyle notStyle property value
      refine (shows turns).trans ?_
      rw [flatMap_eq_nil_iff.mpr fun _ _ => rfl]
      rfl

end Bound

section Folding

variable {η : Type} {n : NodeId} {attributes : List Attribute}

theorem mem_propertiesOf {entry : String × String} (mem : entry ∈ attributes.filterMap writtenProperty?) :
    (entry.1, some entry.2) ∈ propertiesOf attributes := by
  obtain ⟨given, member, written⟩ := mem_filterMap.mp mem
  cases given with
  | value kind name given =>
    obtain ⟨_, constant, _, _⟩ := given
    have listed : ∀ {property : String} {text : String}, constant = some (.text text) →
        bindingOf? kind name = some (.style property) → (property, some text) ∈ propertiesOf attributes := by
      rintro property text rfl styled
      refine mem_filterMap.mpr ⟨(.style property, some text), mem_filterMap.mpr ⟨_, member, ?_⟩, rfl⟩
      rw [knownStep?, styled]
      rfl
    unfold writtenProperty? at written
    dsimp only at written
    split at written
    · obtain rfl := Option.some.inj written
      exact listed rfl rfl
    · obtain rfl := Option.some.inj written
      exact listed rfl rfl
    · cases written
  | _ => cases written

/-- Whether a style property is only switched on, without a value. -/
def isValueless : Attribute → Bool
  | .value kind _ given _ => (kind == .style || kind == .customProperty) && given.constant == some (.bool true)
  | _ => false

theorem filterMap_writtenProperty? (valued : ∀ entry ∈ attributes, isValueless entry = false) :
    attributes.filterMap writtenProperty? = givenValues (propertiesOf attributes) := by
  rw [givenValues, propertiesOf, filterMap_filterMap, filterMap_filterMap]
  refine filterMap_congr fun entry mem => ?_
  cases entry with
  | value kind _ given =>
    obtain ⟨_, constant, _, _⟩ := given
    cases constant with
    | none => cases kind <;> rfl
    | some constant =>
      cases constant with
      | text => cases kind <;> rfl
      | bool on =>
        cases on with
        | false => cases kind <;> rfl
        | true =>
          cases kind with
          | style => cases valued _ mem
          | customProperty => cases valued _ mem
          | _ => rfl
  | _ => rfl

/-- Folding what is known of attributes into the markup gives an element the attributes that binding the same values one
after the other gives it, exactly when these bindings only add to the class and to the style: no class that is toggled
and no property that is set is there when its turn comes, and a base that is added to is in normal form. (A class that
is switched off stays in the markup, and what is there is added a second time.) A style property that is only switched
on is not written, and the bindings set it to nothing; otherwise setting the properties adds what is written of them
exactly when each of them is new. -/
theorem folded_as_bound_iff (once : (plainNames attributes).Nodup) (words : ∀ toggle ∈ togglesOf attributes, IsWord toggle.1)
    (tidy : TidyProperties (propertiesOf attributes)) {doc : Document η Property} {node : Document.Node η Property}
    (found : doc.node? n = some node) (bare : node.attributes = []) (fresh : togglesIn node.properties = none) :
    let base (name : String) := (valueUnder? (wholesOf attributes) name).join
    let written := attributes.filterMap writtenProperty?
    ((∀ name, valueUnder? (StaticAttributes.ofAttributes attributes).merged name =
        (applyAll n (boundInstead attributes) doc).attribute? n name) ↔
      (togglesOf attributes ≠ [] → KeepsClass (base "class") (togglesOf attributes)) ∧
        (propertiesOf attributes ≠ [] → KeepsStyle (base "style") (propertiesOf attributes) written)) ∧
      ((StaticAttributes.ofAttributes attributes).merged.map Prod.fst).Nodup ∧
      ((∀ entry ∈ attributes, isValueless entry = false) → ∀ declarations,
        (propertiesOf attributes).foldl (fun declarations property => declared declarations property.1 property.2) declarations =
          declarations ++ written ↔
        EachNew (declarations.map Prod.fst) (presences (propertiesOf attributes))) := by
  intro base written
  have fine : Style.Tidy written := fun entry inside =>
    ⟨(tidy _ (mem_propertiesOf inside)).1, (tidy _ (mem_propertiesOf inside)).2 _ rfl⟩
  have shown := attribute?_boundInstead found bare fresh once words tidy
  have class_ : foldedClass (base "class") (switchedOn (togglesOf attributes)) =
      (if (togglesOf attributes).isEmpty then base "class" else mergedClass (base "class") (togglesOf attributes)) ↔
        (togglesOf attributes ≠ [] → KeepsClass (base "class") (togglesOf attributes)) := by
    cases toggles : togglesOf attributes with
    | nil => exact iff_of_true rfl fun some => absurd rfl some
    | cons toggle rest =>
      rw [← toggles, if_neg (by simp [toggles]), foldedClass_eq_iff _ words, forall_prop_of_true (by simp [toggles])]
  have style_ : foldedStyle (base "style") written =
      (if (propertiesOf attributes).isEmpty then base "style" else styleText ((propertiesOf attributes).foldl
        (fun declarations property => declared declarations property.1 property.2) (Style.parse ((base "style").getD "")))) ↔
        (propertiesOf attributes ≠ [] → KeepsStyle (base "style") (propertiesOf attributes) written) := by
    cases properties : propertiesOf attributes with
    | nil =>
      have none : written = [] := by
        refine eq_nil_iff_forall_not_mem.mpr fun entry inside => ?_
        have member := mem_propertiesOf inside
        rw [properties] at member
        cases member
      rw [none]
      exact iff_of_true rfl fun some => absurd rfl some
    | cons property rest =>
      rw [← properties, if_neg (by simp [properties]), foldedStyle_eq_iff _ tidy fine,
        forall_prop_of_true (by simp [properties])]
  refine ⟨?_, nodup_knownOf once, fun valued declarations => ?_⟩
  · rw [← class_, ← style_]
    constructor
    · intro same
      have one := same "class"
      have other := same "style"
      rw [valueUnder?_merged once, shown] at one other
      exact ⟨one, other⟩
    · rintro ⟨one, other⟩ name
      rw [valueUnder?_merged once, shown]
      dsimp only
      split
      · rename_i same
        subst same
        exact one
      · split
        · rename_i same
          subst same
          exact other
        · rfl
  · rw [show written = _ from filterMap_writtenProperty? valued]
    exact foldl_declared_iff declarations _

def literally (kind : AttributeKind) (name : String) (constant : Constant) : Attribute :=
  .value kind name ⟨"", some constant, false, none⟩ ⟨⟨0, 1, 1⟩, 0⟩

def dressed : List Attribute :=
  [literally .plain "class" (.text "a"), literally .toggle "b" (.bool true), literally .plain "style" (.text "color: red;"),
    literally .style "margin" (.text "0"), literally .toggle "c" (.bool false), literally .customProperty "gap" (.text "2px")]

theorem folded_as_bound_dressed : (∀ name, valueUnder? (StaticAttributes.ofAttributes dressed).merged name =
      (applyAll 0 (boundInstead dressed) (alone [])).attribute? 0 name) ∧
    (StaticAttributes.ofAttributes dressed).merged =
      [("class", "a b"), ("style", "color: red; margin: 0; --gap: 2px;")] := by
  have found : (alone []).node? 0 = some { kind := .element "p" false, attributes := [] } := rfl
  have words : ∀ toggle ∈ togglesOf dressed, IsWord toggle.1 := by decide
  have tidy : TidyProperties (propertiesOf dressed) := by
    have listed : propertiesOf dressed = [("margin", some "0"), ("--gap", some "2px")] := by decide
    rw [listed]
    simp only [TidyProperties, forall_mem_cons]
    exact ⟨⟨by decide, by rintro _ ⟨⟩; decide⟩, ⟨by decide, by rintro _ ⟨⟩; decide⟩, forall_mem_nil _⟩
  refine ⟨(folded_as_bound_iff (by decide) words tidy found rfl rfl).1.mpr ⟨fun _ => ⟨?_, ?_, ?_⟩, fun _ => ⟨?_, ?_⟩⟩, ?_⟩
  all_goals decide

/-- Where bindings take away from a class or a style, or set what is there, the markup says something else; and it does not
say that a property is switched on. -/
theorem folded_differs :
    let markup (attributes : List Attribute) (name : String) := valueUnder? (StaticAttributes.ofAttributes attributes).merged name
    let bound (attributes : List Attribute) (name : String) :=
      (applyAll 0 (boundInstead attributes) (alone [])).attribute? 0 name
    let off := [literally .plain "class" (.text "a b"), literally .toggle "a" (.bool false)]
    let twice := [literally .plain "class" (.text "a"), literally .toggle "a" (.bool true)]
    let doubled := [literally .plain "style" (.text "color: red;"), literally .style "color" (.text "blue")]
    let valueless := [literally .style "x" (.bool true)]
    (markup off "class" = some "a b" ∧ bound off "class" = some "b") ∧
      (markup twice "class" = some "a a" ∧ bound twice "class" = some "a") ∧
      (markup doubled "style" = some "color: red; color: blue;" ∧ bound doubled "style" = some "color: blue;") ∧
      (markup valueless "style" = none ∧ bound valueless "style" = some "x: ;") := by
  decide

end Folding

end LiveMarkup.Codegen
