import LiveMarkup.Proofs.ElementBindings

/-!
The attributes of an element on both targets. Both start from the attributes that are known. What is computed is printed
behind them by the server, where the first of a name counts, and is set one after the other by the client, where the last
one counts. As long as every name is said once, the two are the same.
-/

namespace LiveMarkup.Codegen
open Blueprint Document Live Markup List StaticAttributes Prod

variable {kind : AttributeKind}

section Passing

/-- What the client's code is worth is what the server's code for the same attribute is worth. -/
structure Passes (values passed : Values) (attributes : List Attribute) : Prop where
  text : ∀ kind name given span, .value kind name given span ∈ attributes → given.dynamic = true →
    passed.text given.emit = values.text given.code
  entries : ∀ code span, .spread code span ∈ attributes → passed.entries code = values.entries code

variable {values passed : Values} {attributes : List Attribute}

theorem attributeStatement?_value (notProperty : kind ≠ .property) (target name : String) (given : Value)
    (span : Template.Span) : attributeStatement? target (.value kind name given span) =
      if given.dynamic then some (.bind kind target name given.emit) else none := by
  have counts : (kind != .property) = true := by
    cases kind with
    | property => exact absurd rfl notProperty
    | _ => rfl
  cases dynamic : given.dynamic <;> simp [attributeStatement?, takes, dynamic, counts]

theorem flatMap_assigned (passes : Passes values passed attributes) (target name : String) :
    (attributes.filterMap (attributeStatement? target)).flatMap (Statement.assigned passed name) =
      assignments values name attributes := by
  rw [filterMap_eq_flatMap_toList, flatMap_assoc, assignments]
  refine flatMap_congr fun entry mem => ?_
  cases entry with
  | value kind n given span =>
    cases kind with
    | plain =>
      rw [attributeStatement?_value (by decide)]
      cases dynamic : given.dynamic with
      | false => simp [assigned, dynamic]
      | true =>
        have same := passes.text .plain n given span mem dynamic
        simp [assigned, dynamic, Statement.assigned, same]
    | _ =>
      rw [attributeStatement?]
      split <;> rfl
  | spread code span =>
    have same := passes.entries code span mem
    simp [attributeStatement?, assigned, Statement.assigned, same]
  | _ => rfl

theorem filterMap_toggle? (passes : Passes values passed attributes) (target : String) :
    (attributes.filterMap (attributeStatement? target)).filterMap (Statement.toggle? passed) =
      (ComputedAttributes.ofAttributes attributes).classes.map fun (name, code) => (name, (values.text code).isSome) := by
  unfold ComputedAttributes.ofAttributes
  rw [filterMap_filterMap, map_filterMap]
  refine filterMap_congr fun entry mem => ?_
  cases entry with
  | value kind n given span =>
    cases kind with
    | toggle =>
      rw [attributeStatement?_value (by decide)]
      cases dynamic : given.dynamic with
      | false => simp [dynamic]
      | true => simp [dynamic, Statement.toggle?, passes.text .toggle n given span mem dynamic]
    | _ =>
      rw [attributeStatement?]
      split <;> rfl
  | _ => rfl

theorem filterMap_declaration? (passes : Passes values passed attributes) (target : String) :
    (attributes.filterMap (attributeStatement? target)).filterMap (Statement.declaration? passed) =
      (ComputedAttributes.ofAttributes attributes).styles.map fun (name, code) => (name, values.text code) := by
  unfold ComputedAttributes.ofAttributes
  rw [filterMap_filterMap, map_filterMap]
  refine filterMap_congr fun entry mem => ?_
  cases entry with
  | value kind n given span =>
    cases kind with
    | style | customProperty =>
      rw [attributeStatement?_value (by decide)]
      cases dynamic : given.dynamic with
      | false => simp [dynamic]
      | true => simp [dynamic, Statement.declaration?, passes.text _ n given span mem dynamic]
    | _ =>
      rw [attributeStatement?]
      split <;> rfl
  | _ => rfl

theorem spread_mem_clientStatements {target t code : String} (mem : .spread t code ∈ clientStatements target attributes) :
    ∃ span, .spread code span ∈ attributes := by
  have among := (perm_orderStatements [] [] false _).mem_iff.mp mem
  obtain ⟨entry, member, made⟩ := mem_filterMap.mp among
  cases entry with
  | value =>
    rw [attributeStatement?] at made
    split at made
    · cases made
    · cases made
  | spread _ span =>
    cases made
    exact ⟨span, member⟩
  | _ => cases made

theorem flatMap_clientStatements (passes : Passes values passed attributes) (target : String) {name : String}
    (notClass : name ≠ "class") (notStyle : name ≠ "style") :
    (clientStatements target attributes).flatMap (Statement.assigned passed name) = assignments values name attributes := by
  have moved : ∀ statement : Statement, statement.isBase = true → statement.assigned passed name = [] := by
    intro statement base
    cases statement with
    | bind kind =>
      cases kind with
      | plain =>
        simp only [Statement.isBase, Bool.or_eq_true, beq_iff_eq] at base
        rw [Statement.assigned, if_neg]
        rintro rfl
        exact base.elim notClass notStyle
      | _ => rfl
    | spread => cases base
    | _ => rfl
  rw [clientStatements, flatMap_orderStatements _ moved [] [] false (fun _ => rfl), nil_append, nil_append,
    flatMap_assigned passes]

end Passing

section Known

variable {attributes : List Attribute} {name : String}

def plainNames (attributes : List Attribute) : List String :=
  attributes.filterMap fun
    | .value .plain name _ _ => some name
    | _ => none

theorem mem_plainNames : name ∈ plainNames attributes ↔ ∃ given span, .value .plain name given span ∈ attributes := by
  constructor
  · intro mem
    obtain ⟨entry, member, same⟩ := mem_filterMap.mp mem
    cases entry with
    | value kind _ given span =>
      cases kind with
      | plain =>
        cases same
        exact ⟨given, span, member⟩
      | _ => cases same
    | _ => cases same
  · rintro ⟨given, span, member⟩
    exact mem_filterMap.mpr ⟨.value .plain name given span, member, rfl⟩

def staticAttribute? : Attribute → Option (String × String)
  | .value .plain name given _ =>
    match given.constant with
    | some (.text text) => some (name, text)
    | some (.bool true) => some (name, "")
    | _ => none
  | _ => none

def withStatic (statics : StaticAttributes) : Attribute → StaticAttributes
  | .value kind name given _ => if StaticAttributes.takes kind given then statics.add kind name given else statics
  | _ => statics

theorem attributes_ofAttributes (attributes : List Attribute) :
    (ofAttributes attributes).attributes = attributes.filterMap staticAttribute? := by
  have folded : ∀ statics : StaticAttributes, (attributes.foldl withStatic statics).attributes =
      statics.attributes ++ attributes.filterMap staticAttribute? := by
    induction attributes with
    | nil => exact fun statics => (append_nil _).symm
    | cons entry _ ih =>
      intro statics
      rw [foldl_cons, ih, filterMap_cons]
      cases entry with
      | value kind _ given =>
        obtain ⟨_, constant, _, _⟩ := given
        cases kind with
        | plain =>
          cases constant with
          | none => rfl
          | some constant =>
            cases constant with
            | text => exact append_assoc _ _ _
            | bool on =>
              cases on with
              | false => rfl
              | true => exact append_assoc _ _ _
        | _ =>
          cases constant with
          | none => rfl
          | some constant =>
            cases constant with
            | text => rfl
            | bool on => cases on <;> rfl
      | _ => rfl
  exact folded {}

theorem static_of_mem (mem : name ∈ (ofAttributes attributes).attributes.map fst) :
    ∃ given span, .value .plain name given span ∈ attributes ∧ given.dynamic = false := by
  rw [attributes_ofAttributes] at mem
  obtain ⟨⟨_, _⟩, found, rfl⟩ := mem_map.mp mem
  obtain ⟨entry, member, known⟩ := mem_filterMap.mp found
  cases entry with
  | value kind _ given span =>
    cases kind with
    | plain =>
      cases constant : given.constant with
      | none =>
        simp only [staticAttribute?, constant] at known
        cases known
      | some =>
        refine ⟨given, span, ?_, by simp [Value.dynamic, constant]⟩
        dsimp only [staticAttribute?] at known
        split at known <;> cases known <;> exact member
    | _ => cases known
  | _ => cases known

theorem keys_upsert (name : String) (change : String → String) (fresh : String) (entries : Attributes) :
    (upsert name change fresh entries).map fst =
      if name ∈ entries.map fst then entries.map fst else entries.map fst ++ [name] := by
  induction entries with
  | nil => rfl
  | cons entry _ ih =>
    by_cases here : entry.1 = name
    · simp [upsert, here]
    · have apart : ¬ name = entry.1 := fun h => here h.symm
      simp only [upsert, if_neg here, map_cons, ih, mem_cons, apart, false_or]
      split <;> simp

theorem nodup_upsert {entries : Attributes} (once : (entries.map fst).Nodup) (name : String)
    (change : String → String) (fresh : String) :
    ((upsert name change fresh entries).map fst).Nodup := by
  rw [keys_upsert]
  split
  · exact once
  · rename_i absent
    refine nodup_append.mpr ⟨once, by simp, ?_⟩
    rintro _ first _ second rfl
    exact absent (mem_singleton.mp second ▸ first)

theorem staticNames_sublist (attributes : List Attribute) :
    ((ofAttributes attributes).attributes.map fst).Sublist (plainNames attributes) := by
  rw [attributes_ofAttributes, plainNames]
  induction attributes with
  | nil => exact .slnil
  | cons entry _ ih =>
    rw [filterMap_cons, filterMap_cons]
    cases entry with
    | value kind name =>
      cases kind with
      | plain =>
        dsimp only [staticAttribute?]
        split
        · rename_i none
          exact ih.cons name
        · rename_i entry found
          have same : entry.1 = name := by
            split at found <;> cases found <;> rfl
          rw [map_cons, same]
          exact ih.cons_cons name
      | _ => exact ih
    | _ => exact ih

theorem nodup_knownOf (once : (plainNames attributes).Nodup) : ((knownOf attributes).map fst).Nodup := by
  have whole := once.sublist (staticNames_sublist attributes)
  unfold knownOf merged
  split
  · split
    · exact whole
    · exact nodup_upsert whole _ _ _
  · split
    · exact nodup_upsert whole _ _ _
    · exact nodup_upsert (nodup_upsert whole _ _ _) _ _ _

theorem mem_knownOf (mem : name ∈ (knownOf attributes).map fst) : name ∈ (ofAttributes attributes).attributes.map fst ∨
      name = "class" ∧ (ofAttributes attributes).classes ≠ [] ∨
      name = "style" ∧ (ofAttributes attributes).styles ≠ [] := by
  have added : ∀ {list : String} {change : String → String} {fresh : String} {entries : Attributes},
      name ∈ (upsert list change fresh entries).map fst → name ∈ entries.map fst ∨ name = list := by
    intro list change fresh entries mem
    rw [keys_upsert] at mem
    split at mem
    · exact .inl mem
    · simpa using mem
  unfold knownOf merged at mem
  dsimp only at mem
  split at mem
  · split at mem
    · exact .inl mem
    · rename_i classes
      exact (added mem).imp_right fun same => .inl ⟨same, by simpa using classes⟩
  · rename_i styles
    rcases added mem with mem | same
    · split at mem
      · exact .inl mem
      · rename_i classes
        exact (added mem).imp_right fun same => .inl ⟨same, by simpa using classes⟩
    · exact .inr (.inr ⟨same, by simpa using styles⟩)

end Known

section Agreement

variable {η : Type} {values passed : Values} {attributes : List Attribute}
variable {name : String} {α : Type} {statement : Statement}

def wholeValue (values : Values) (attributes : List Attribute) (name : String) : Option String :=
  lastOf (valueUnder? (knownOf attributes) name) (assignments values name attributes)

/-- Every attribute, class and style property of an element is said once, under a name, and style properties and their
values can be told apart in a style. -/
structure Separate (values : Values) (attributes : List Attribute) : Prop where
  noSpread : ∀ code span, .spread code span ∉ attributes
  once : (plainNames attributes).Nodup
  named : "" ∉ plainNames attributes
  toggles : ∀ name given span, .value .toggle name given span ∈ attributes → name ≠ ""
  properties : ∀ kind name given span, .value kind name given span ∈ attributes → kind = .style ∨ kind = .customProperty →
    styleName kind name ≠ "" ∧ ':' ∉ name.toList ∧
      (given.dynamic = true → ∀ text ∈ values.text given.code, Style.TidyValue text)
  /-- No class that is computed as a whole stands beside classes that are known. -/
  classes : ∀ given span, .value .plain "class" given span ∈ attributes → given.dynamic = true →
    (StaticAttributes.ofAttributes attributes).classes = []
  styles : ∀ given span, .value .plain "style" given span ∈ attributes → given.dynamic = true →
    (StaticAttributes.ofAttributes attributes).styles = []
  /-- No property comes twice in the style that others are added to. -/
  base : ((Style.parse ((wholeValue values attributes "style").getD "")).map Prod.fst).Nodup

theorem assigned_eq_nil {entry : Attribute} (noSpread : ∀ code span, entry ≠ .spread code span)
    (other : ∀ given span, entry = .value .plain name given span → given.dynamic = false) :
    assigned values name entry = [] := by
  cases entry with
  | value kind _ given span =>
    cases kind with
    | plain =>
      rw [assigned]
      refine if_neg fun both => ?_
      obtain ⟨dynamic, same⟩ := Bool.and_eq_true_iff.mp both
      obtain rfl := beq_iff_eq.mp same
      rw [other given span rfl] at dynamic
      cases dynamic
    | _ => rfl
  | spread code span => exact absurd rfl (noSpread code span)
  | _ => rfl

theorem lastOf_of_one {known : Option String} {given : List (Option String)} (once : known.toList.length + given.length ≤ 1) :
    lastOf known given = known.or (given.findSome? id) := by
  match known, given with
  | none, [] => rfl
  | none, [value] => cases value <;> rfl
  | some text, [] => rfl
  | none, _ :: _ :: _ => simp at once
  | some _, _ :: _ =>
    simp only [Option.toList_some, length_cons] at once
    omega

theorem Separate.unassigned (separate : Separate values attributes) {part : List Attribute} (within : part ⊆ attributes)
    (idle : ∀ given span, .value .plain name given span ∈ part → given.dynamic = false) :
    part.flatMap (assigned values name) = [] := by
  rw [flatMap_eq_nil_iff]
  intro entry mem
  refine assigned_eq_nil (fun code span same => separate.noSpread code span (same ▸ within mem)) ?_
  rintro given span rfl
  exact idle given span mem

theorem Separate.first_eq_last (separate : Separate values attributes) (name : String) :
    (valueUnder? (knownOf attributes) name).or ((assignments values name attributes).findSome? id) =
      wholeValue values attributes name := by
  unfold wholeValue
  by_cases computed : ∃ given span, .value .plain name given span ∈ attributes ∧ given.dynamic = true
  · obtain ⟨given, span, mem, dynamic⟩ := computed
    obtain ⟨front, back, whole⟩ := append_of_mem mem
    have once := separate.once
    rw [whole, plainNames, filterMap_append, filterMap_cons, ← plainNames, ← plainNames] at once
    obtain ⟨notFront, notBack⟩ : name ∉ plainNames front ∧ name ∉ plainNames back := by
      have apart := nodup_append.mp once
      exact ⟨fun early => apart.2.2 name early name mem_cons_self rfl, (nodup_cons.mp apart.2.1).1⟩
    have elsewhere {part : List Attribute} (within : part ⊆ attributes) (absent : name ∉ plainNames part) :=
      separate.unassigned within fun other place member => absurd (mem_plainNames.mpr ⟨other, place, member⟩) absent
    have given_once : assignments values name attributes = [values.text given.code] := by
      rw [assignments, whole, flatMap_append, flatMap_cons,
        elsewhere (fun entry member => whole ▸ mem_append_left _ member) notFront,
        elsewhere (fun entry member => whole ▸ mem_append_right _ (mem_cons_of_mem _ member)) notBack, assigned, dynamic]
      simp
    have unknown : name ∉ (knownOf attributes).map fst := by
      intro known
      rcases mem_knownOf known with whole_known | ⟨rfl, some⟩ | ⟨rfl, some⟩
      · obtain ⟨other, place, member, fixed⟩ := static_of_mem whole_known
        rw [whole] at member
        rcases mem_append.mp member with early | late
        · exact notFront (mem_plainNames.mpr ⟨other, place, early⟩)
        · rcases mem_cons.mp late with same | late
          · cases same
            rw [dynamic] at fixed
            cases fixed
          · exact notBack (mem_plainNames.mpr ⟨other, place, late⟩)
      · exact some (separate.classes given span mem dynamic)
      · exact some (separate.styles given span mem dynamic)
    rw [given_once, valueUnder?_of_not_mem unknown]
    exact (lastOf_of_one (by simp)).symm
  · have nothing : assignments values name attributes = [] := separate.unassigned (Subset.refl _) fun given span mem =>
      Bool.eq_false_iff.mpr fun dynamic => computed ⟨given, span, mem, dynamic⟩
    rw [nothing]
    exact Option.or_none

def finalValue (values : Values) (attributes : List Attribute) (name : String) : Option String :=
  let computed := ComputedAttributes.ofAttributes attributes
  if replaced attributes name then
    if name = "class" then
      mergedClass (wholeValue values attributes "class")
        (computed.classes.map fun (name, code) => (name, (values.text code).isSome))
    else mergedStyle (wholeValue values attributes "style") (computed.styles.map fun (name, code) => (name, values.text code))
  else wholeValue values attributes name

theorem Separate.valueUnder?_printed (separate : Separate values attributes) (name : String) :
    valueUnder? (printedAttributes values attributes) name = finalValue values attributes name := by
  have once := nodup_knownOf separate.once
  unfold finalValue
  cases gone : replaced attributes name with
  | false =>
    rw [Codegen.valueUnder?_printed values gone fun code span mem => absurd mem (separate.noSpread code span),
      separate.first_eq_last]
    rfl
  | true =>
    simp only [replaced, Bool.or_eq_true, Bool.and_eq_true, beq_iff_eq, Bool.not_eq_true'] at gone
    rcases gone with ⟨rfl, some⟩ | ⟨rfl, some⟩
    · rw [valueUnder?_printed_class values some separate.noSpread]
      exact mergedClass_congr (value_baseOf values "class" once separate.noSpread) _
    · rw [valueUnder?_printed_style values some separate.noSpread]
      exact mergedStyle_congr (value_baseOf values "style" once separate.noSpread) _

theorem flatMap_filter_of {β : Type} {p : α → Bool} {f : α → List β} {items : List α}
    (nothing : ∀ item ∈ items, p item = false → f item = []) : (items.filter p).flatMap f = items.flatMap f := by
  induction items with
  | nil => rfl
  | cons item _ ih =>
    have later := ih fun other mem => nothing other (mem_cons_of_mem item mem)
    cases kept : p item with
    | true => rw [filter_cons_of_pos kept, flatMap_cons, flatMap_cons, later]
    | false =>
      rw [filter_cons_of_neg (by simp [kept]), flatMap_cons, nothing item mem_cons_self kept, later,
        nil_append]

theorem assigned_of_not_isBase (list : name = "class" ∨ name = "style")
    (noSpread : ∀ t code, statement ≠ .spread t code) (other : statement.isBase = false) :
    statement.assigned passed name = [] := by
  cases statement with
  | bind kind =>
    cases kind with
    | plain =>
      obtain ⟨notClass, notStyle⟩ := others_of_not_isBase other
      rw [Statement.assigned, if_neg]
      rintro rfl
      exact list.elim notClass notStyle
    | _ => rfl
  | spread t code => exact absurd rfl (noSpread t code)
  | _ => rfl

theorem filterMap_filter_isToggle {item? : Statement → Option α}
    (toggles : ∀ statement, statement.isToggle = false → item? statement = none) (statements : List Statement) :
    (statements.filter Statement.isToggle).filterMap item? = statements.filterMap item? := by
  rw [filterMap_filter]
  refine filterMap_congr fun statement _ => ?_
  cases toggle : statement.isToggle with
  | true => rfl
  | false => exact (toggles statement toggle).symm

theorem toggle?_of_not_isToggle (passed : Values) (other : statement.isToggle = false) :
    statement.toggle? passed = none ∧ statement.declaration? passed = none := by
  cases statement with
  | bind kind =>
    cases kind with
    | plain => exact ⟨rfl, rfl⟩
    | property => exact ⟨rfl, rfl⟩
    | _ => cases other
  | _ => exact ⟨rfl, rfl⟩

theorem clientStatements_parts (noSpread : ∀ code span, .spread code span ∉ attributes) (passes : Passes values passed attributes)
    (target : String) : ∃ front back, clientStatements target attributes = front ++ back ∧
      (∀ statement ∈ front, statement.isToggle = false) ∧ (∀ statement ∈ back, statement.isBase = false) ∧
      (∀ t code, .spread t code ∉ front ++ back) ∧
      (∀ name, name = "class" ∨ name = "style" →
        front.flatMap (Statement.assigned passed name) = assignments values name attributes) ∧
      back.filterMap (Statement.toggle? passed) =
        (ComputedAttributes.ofAttributes attributes).classes.map (fun (name, code) => (name, (values.text code).isSome)) ∧
      back.filterMap (Statement.declaration? passed) =
        (ComputedAttributes.ofAttributes attributes).styles.map fun (name, code) => (name, values.text code) := by
  obtain ⟨front, back, same, noToggle, noBase, bases, toggles⟩ := orderStatements_split [] [] false
    (attributes.filterMap (attributeStatement? target)) (forall_mem_nil _) (forall_mem_nil _)
  rw [nil_append] at bases toggles
  have noSpreads : ∀ t code, .spread t code ∉ clientStatements target attributes := by
    intro t code mem
    obtain ⟨span, member⟩ := spread_mem_clientStatements mem
    exact noSpread code span member
  have unordered : ∀ t code, .spread t code ∉ attributes.filterMap (attributeStatement? target) := fun t code mem =>
    noSpreads t code ((perm_orderStatements [] [] false _).mem_iff.mpr mem)
  rw [clientStatements, same] at noSpreads
  refine ⟨front, back, same, noToggle, noBase, noSpreads, fun name list => ?_, ?_, ?_⟩
  · have early : (front.filter Statement.isBase).flatMap (Statement.assigned passed name) =
        front.flatMap (Statement.assigned passed name) := flatMap_filter_of fun statement mem other =>
      assigned_of_not_isBase list (fun t code is => noSpreads t code (is ▸ mem_append_left _ mem)) other
    rw [← early, bases, ← flatMap_assigned passes target]
    exact flatMap_filter_of fun statement mem other =>
      assigned_of_not_isBase list (fun t code is => unordered t code (is ▸ mem)) other
  · have only := filterMap_filter_isToggle fun statement other => (toggle?_of_not_isToggle passed other).1
    rw [← filterMap_toggle? passes target, ← only back, toggles, only]
  · have only := filterMap_filter_isToggle fun statement other => (toggle?_of_not_isToggle passed other).2
    rw [← filterMap_declaration? passes target, ← only back, toggles, only]

theorem not_blank_of_isNamePart {c : Char} (part : Template.Parser.isNamePart c) : Text.isBlank c = false :=
  (isNameChar_iff.mp (isNameChar_of_isNamePart part)).1

theorem Separate.isWord (separate : Separate values attributes) (lettered : ∀ entry ∈ attributes, entry.Lettered)
    {toggle : String × String} (mem : toggle ∈ (ComputedAttributes.ofAttributes attributes).classes) :
    Text.IsWord toggle.1 := by
  obtain ⟨entry, member, made⟩ := mem_filterMap.mp mem
  cases entry with
  | value kind name given span =>
    cases kind with
    | toggle =>
      have same : toggle.1 = name := by
        dsimp only at made
        split at made
        · cases made
          rfl
        · cases made
      have letters : ∀ c ∈ name.toList, Template.Parser.isNamePart c := lettered _ member
      have some := separate.toggles name given span member
      rw [same]
      exact ⟨by simpa using some, fun c letter => not_blank_of_isNamePart (letters c letter)⟩
    | _ => cases made
  | _ => cases made

theorem tidyName_of_letters (letters : ∀ c ∈ name.toList, Template.Parser.isNamePart c)
    (some : styleName kind name ≠ "") (plain : ':' ∉ name.toList) : Style.TidyName (styleName kind name) := by
  have parts : ∀ c ∈ (styleName kind name).toList, c ∈ name.toList ∨ c = '-' := by
    intro c mem
    unfold styleName at mem
    split at mem
    · rw [String.toList_append] at mem
      rcases mem_append.mp mem with dash | letter
      · exact .inr (by simpa using dash)
      · exact .inl letter
    · exact .inl mem
  have solid : ∀ c ∈ (styleName kind name).toList, Text.isBlank c = false := fun c mem => by
    rcases parts c mem with letter | rfl
    · exact not_blank_of_isNamePart (letters c letter)
    · decide
  refine ⟨some, trim_of_not_blank solid, fun colon => ?_, fun semicolon => ?_⟩
  · rcases parts _ colon with letter | dash
    · exact plain letter
    · cases dash
  · rcases parts _ semicolon with letter | dash
    · exact absurd (letters _ letter) (by decide)
    · cases dash

theorem Separate.tidy (separate : Separate values attributes) (lettered : ∀ entry ∈ attributes, entry.Lettered)
    {property : String × String} (mem : property ∈ (ComputedAttributes.ofAttributes attributes).styles) :
    Style.TidyName property.1 ∧ ∀ text ∈ values.text property.2, Style.TidyValue text := by
  obtain ⟨entry, member, made⟩ := mem_filterMap.mp mem
  cases entry with
  | value kind name given span =>
    have letters : ∀ c ∈ name.toList, Template.Parser.isNamePart c := lettered _ member
    have styled : kind = .style ∨ kind = .customProperty → given.dynamic = true →
        property = (styleName kind name, given.code) →
        Style.TidyName property.1 ∧ ∀ text ∈ values.text property.2, Style.TidyValue text := by
      rintro style dynamic rfl
      obtain ⟨some, plain, tidy⟩ := separate.properties kind name given span member style
      exact ⟨tidyName_of_letters letters some plain, tidy dynamic⟩
    cases kind with
    | style =>
      dsimp only at made
      split at made
      · cases made
        exact styled (.inl rfl) ‹_› rfl
      · cases made
    | customProperty =>
      dsimp only at made
      split at made
      · cases made
        exact styled (.inr rfl) ‹_› rfl
      · cases made
    | _ => cases made
  | _ => cases made

theorem runStatements_append (values : Values) (n : NodeId) (first second : List Statement) (doc : Document η Property) :
    runStatements values n (first ++ second) doc = runStatements values n second (runStatements values n first doc) :=
  foldl_append

theorem Separate.attribute?_runStatements (separate : Separate values attributes)
    (lettered : ∀ entry ∈ attributes, entry.Lettered) (passes : Passes values passed attributes) {doc : Document η Property}
    {n : NodeId} {node : Document.Node η Property} (found : doc.node? n = some node) (fresh : togglesIn node.properties = none)
    (target : String) (known : valueUnder? node.attributes name = valueUnder? (knownOf attributes) name) :
    (runStatements passed n (clientStatements target attributes) doc).attribute? n name = finalValue values attributes name := by
  by_cases list : name = "class" ∨ name = "style"
  · obtain ⟨front, back, same, noToggle, noBase, noSpread, wholes, toggles, properties⟩ :=
      clientStatements_parts separate.noSpread passes target
    obtain ⟨middle, first, based⟩ := turns_front passed noToggle
      (fun t code mem => noSpread t code (mem_append_left _ mem)) found fresh
    have base : valueUnder? middle.attributes name = wholeValue values attributes name := by
      rw [based name, wholes name list, known]
      rfl
    have noSpreads := fun t code mem => noSpread t code (mem_append_right front mem)
    rw [same, runStatements_append]
    rcases list with rfl | rfl
    · have words : ∀ toggle ∈ back.filterMap (Statement.toggle? passed), Text.IsWord toggle.1 := by
        rw [toggles]
        intro toggle mem
        obtain ⟨_, member, rfl⟩ := mem_map.mp mem
        exact separate.isWord lettered member
      obtain ⟨_, second, shown⟩ := turns_class passed noBase noSpreads words first.result
      rw [attribute?_of_node? second.result, shown, base]
      refine (foldl_toggles words _).trans ?_
      rw [toggles]
      unfold finalValue
      cases none : (ComputedAttributes.ofAttributes attributes).classes.isEmpty <;> simp [replaced, none]
    · have tidy : ∀ property ∈ back.filterMap (Statement.declaration? passed),
          Style.TidyName property.1 ∧ ∀ text ∈ property.2, Style.TidyValue text := by
        rw [properties]
        intro property mem
        obtain ⟨_, member, rfl⟩ := mem_map.mp mem
        exact separate.tidy lettered member
      obtain ⟨_, second, shown⟩ := turns_style passed noBase noSpreads tidy first.result
      rw [attribute?_of_node? second.result, shown, base]
      refine (foldl_properties tidy separate.base).trans ?_
      rw [properties]
      unfold finalValue
      cases none : (ComputedAttributes.ofAttributes attributes).styles.isEmpty <;> simp [replaced, none]
  · obtain ⟨notClass, notStyle⟩ := not_or.mp list
    have keys : ∀ t code, .spread t code ∈ clientStatements target attributes → isPlainKey name = true := by
      intro t code mem
      obtain ⟨span, member⟩ := spread_mem_clientStatements mem
      exact absurd member (separate.noSpread code span)
    obtain ⟨_, edited, shown⟩ := assigns_runStatements passed notClass notStyle keys found
    have kept : replaced attributes name = false := by simp [replaced, notClass, notStyle]
    rw [attribute?_of_node? edited.result, shown, flatMap_clientStatements passes target notClass notStyle, known]
    simp [finalValue, kept, wholeValue]

end Agreement

section Targets

variable {η : Type} {values passed : Values} {element : Blueprint.Element} {attributes : List Attribute}

/-- What both generators write for the open tag of an element: the calls that the client makes behind those of the program
so far, the attributes in the markup that it clones, and the attributes that are read from what the server prints. -/
structure Opens (values : Values) (element : Blueprint.Element) (attributes : List Attribute) (address : Address)
    (program : ClientProgram) (one other : Context) (calls : List Statement) (known served : Attributes) : Prop where
  calls_eq : (clientElement address element attributes (pure ()) program one).1.2.statements = program.statements ++ calls
  cloned : ∃ opening, tagAttributes? opening = some known ∧
    (clientElement address element attributes (pure ()) program one).1.2.html = program.html ++ opening ++ endTag element
  printed : tagAttributes? (serverTag values element attributes other) = some served

theorem tagAttributes?_clientTag (tag : ReadableTag element.tag) (lettered : ∀ entry ∈ attributes, entry.Lettered) :
    tagAttributes? (clientTag element attributes) = some (addAttributes [] (knownOf attributes)) :=
  tagAttributes?_written tag (readableNames_merged lettered)

theorem exists_opens (tag : ReadableTag element.tag) (lettered : ∀ entry ∈ attributes, entry.Lettered)
    (legible : values.Legible attributes) (address : Address) (program : ClientProgram) (one other : Context) :
    ∃ target, Opens values element attributes address program one other (clientStatements target attributes)
      (addAttributes [] (knownOf attributes)) (addAttributes [] (printedAttributes values attributes)) := by
  have made : Makes (clientElement address element attributes (pure ())) program fun _ after =>
      ∃ between : ClientProgram, (∃ target, between.statements = program.statements ++ clientStatements target attributes ∧
          between.html = program.html ++ clientTag element attributes) ∧
        after.statements = between.statements ∧ after.html = between.html ++ endTag element :=
    makes_opening fun target middle calls html => makes_pure ⟨target, calls, html⟩
  obtain ⟨_, ⟨target, calls, html⟩, sameCalls, written⟩ := made one
  refine ⟨target, sameCalls.trans calls, ⟨clientTag element attributes, ?_, ?_⟩, ?_⟩
  · exact tagAttributes?_clientTag tag lettered
  · rw [written, html]
  · exact tagAttributes?_serverTag tag lettered legible other

theorem valueUnder?_addAttributes_empty (before attributes : Attributes) :
    valueUnder? (addAttributes before attributes) "" = valueUnder? before "" := by
  induction attributes generalizing before with
  | nil => rfl
  | cons entry _ ih =>
    rw [addAttributes, foldl_cons, ← addAttributes, ih, Piece.addAttribute]
    split
    · rfl
    · rename_i added
      have named : entry.1 ≠ "" := by
        rintro same
        simp [same] at added
      rw [valueUnder?_append, valueUnder?_cons, if_neg named]
      exact Option.or_none

theorem Separate.unnamed (separate : Separate values attributes) :
    valueUnder? (knownOf attributes) "" = none ∧ finalValue values attributes "" = none := by
  have unknown : valueUnder? (knownOf attributes) "" = none := by
    refine valueUnder?_of_not_mem fun known => ?_
    rcases mem_knownOf known with whole | ⟨same, -⟩ | ⟨same, -⟩
    · exact separate.named ((staticNames_sublist attributes).subset whole)
    · exact absurd same (by decide)
    · exact absurd same (by decide)
  have nothing : assignments values "" attributes = [] := separate.unassigned (Subset.refl _) fun given span mem =>
    absurd (mem_plainNames.mpr ⟨given, span, mem⟩) separate.named
  refine ⟨unknown, ?_⟩
  have kept : replaced attributes "" = false := by simp [replaced]
  simp [finalValue, kept, wholeValue, unknown, nothing, lastOf]

/-- The attributes agree on both targets when there are no spreads and every attribute is said once: those that are read
from what the server prints are those that the client's element has after the calls have run on what was cloned. -/
theorem attributes_agree_on_targets (tag : ReadableTag element.tag) (lettered : ∀ entry ∈ attributes, entry.Lettered)
    (separate : Separate values attributes) (passes : Passes values passed attributes) (address : Address)
    (program : ClientProgram) (one other : Context) :
    ∃ calls known served, Opens values element attributes address program one other calls known served ∧
      ∀ (doc : Document η Property) (n : NodeId) (node : Document.Node η Property), doc.node? n = some node →
        node.attributes = known → togglesIn node.properties = none →
        ∀ name, (runStatements passed n calls doc).attribute? n name = valueUnder? served name := by
  obtain ⟨target, opens⟩ := exists_opens tag lettered
    (fun code span inside => absurd inside (separate.noSpread code span)) address program one other
  refine ⟨_, _, _, opens, fun doc n node found start fresh name => ?_⟩
  obtain ⟨unknown, final⟩ := separate.unnamed
  by_cases named : name = ""
  · subst named
    rw [separate.attribute?_runStatements lettered passes found fresh target, final, valueUnder?_addAttributes_empty]
    · rfl
    · rw [start, valueUnder?_addAttributes_empty, unknown]
      rfl
  · rw [separate.attribute?_runStatements lettered passes found fresh target, valueUnder?_addAttributes _ _ named,
      nil_append, separate.valueUnder?_printed]
    rw [start, valueUnder?_addAttributes _ _ named, nil_append]

instance (entry : Attribute) : Decidable entry.Lettered :=
  match entry with
  | .value _ name _ _ => decidable_of_iff (name.toList.all Template.Parser.isNamePart = true) all_eq_true
  | .spread _ _ => isTrue trivial
  | .reference _ _ => isTrue trivial
  | .event _ _ _ _ => isTrue trivial
  | .directive _ _ _ => isTrue trivial

/-- A paragraph with a class and a title, a class that is toggled and a color. -/
def label : List Attribute :=
  let span := Template.Span.mk ⟨0, 1, 1⟩ 0
  [.value .plain "class" (.ofText "card") span, .value .toggle "active" ⟨"on()", none, true, some "on"⟩ span,
    .value .style "color" ⟨"tone()", none, true, some "tone"⟩ span, .value .plain "title" ⟨"t", none, false, none⟩ span]

def labelElement : Blueprint.Element := ⟨"p", false, false, 0, 0, ⟨⟨0, 1, 1⟩, 0⟩, true⟩

theorem readable_label : ReadableTag labelElement.tag := (by decide : OrdinaryTag "p").toTagName.readableTag

def Values.constant (text : String) : Values := ⟨fun _ => some text, fun _ => []⟩

def alone (attributes : Attributes) : Document Unit Property := { nodes := #[{ kind := .element "p" false, attributes }] }

theorem attributes_agree_on_targets_label :
    ∃ calls known served, Opens (.constant "red") labelElement label [] .start ⟨.client, "rt", {}, []⟩ ⟨.server, "rt", {}, []⟩
        calls known served ∧
      valueUnder? served "class" = some "card active" ∧ valueUnder? served "style" = some "color: red;" ∧
      ∀ name, (runStatements (.constant "red") 0 calls (alone known)).attribute? 0 name = valueUnder? served name := by
  have lettered : ∀ entry ∈ label, entry.Lettered := by decide
  have separate : Separate (.constant "red") label := by
    refine ⟨by simp [label], by decide, by decide, ?_, ?_, fun _ _ _ _ => rfl, fun _ _ _ _ => rfl, by decide⟩
    · rintro name given span inside rfl
      simp [label] at inside
    · rintro kind name given span inside style
      have tidy : ∀ text ∈ (Values.constant "red").text given.code, Style.TidyValue text := by
        rintro text ⟨⟩
        decide
      rcases style with rfl | rfl
      · simp only [label, mem_cons, Attribute.value.injEq, not_mem_nil, reduceCtorEq, false_and, true_and, or_false,
          false_or] at inside
        obtain ⟨rfl, -⟩ := inside
        exact ⟨by decide, by decide, fun _ => tidy⟩
      · simp [label] at inside
  have passes : Passes (.constant "red") (.constant "red") label := ⟨fun _ _ _ _ _ _ => rfl, fun _ _ _ => rfl⟩
  obtain ⟨calls, known, served, opens, agree⟩ := attributes_agree_on_targets (η := Unit) readable_label lettered separate passes [] .start
    ⟨.client, "rt", {}, []⟩ ⟨.server, "rt", {}, []⟩
  have legible : (Values.constant "red").Legible label := fun _ _ _ _ inside => (not_mem_nil inside).elim
  have printed := Option.some.inj (opens.printed.symm.trans (tagAttributes?_serverTag readable_label lettered legible _))
  refine ⟨calls, known, served, opens, ?_, ?_, agree (alone known) 0 _ rfl rfl rfl⟩
  · rw [printed]
    decide
  · rw [printed]
    decide

def unnamedToggle : List Attribute :=
  let span := Template.Span.mk ⟨0, 1, 1⟩ 0
  [.value .plain "class" (.ofText "a") span, .value .toggle "" ⟨"on", none, false, none⟩ span]

/-- A class without a name is added by the server and leaves a space, which the client does not write. -/
theorem unnamed_toggle_differs :
    (∀ context, (tagAttributes? (serverTag (.constant "") labelElement unnamedToggle context)).map (valueUnder? · "class") =
        some (some "a ")) ∧
      tagAttributes? (clientTag labelElement unnamedToggle) = some [("class", "a")] ∧
      (runStatements (.constant "") 0 (clientStatements "__el" unnamedToggle) (alone [("class", "a")])).attribute? 0 "class" =
        some "a" := by
  have lettered : ∀ entry ∈ unnamedToggle, entry.Lettered := by decide
  have legible : (Values.constant "").Legible unnamedToggle := fun _ _ _ _ inside => (not_mem_nil inside).elim
  refine ⟨fun context => ?_, ?_, ?_⟩
  · rw [tagAttributes?_serverTag readable_label lettered legible]
    decide
  · rw [tagAttributes?_clientTag readable_label lettered]
    decide
  · decide

/-- With spreads in any place, the server gives a plain attribute what is known of it, or else the first value that an
attribute or a spread gives it, and the client the last one, or else what is known. So both agree when at most one of them
says something. -/
theorem spreads_take_precedence (tag : ReadableTag element.tag) (lettered : ∀ entry ∈ attributes, entry.Lettered)
    (legible : values.Legible attributes) (passes : Passes values passed attributes) (address : Address)
    (program : ClientProgram) (one other : Context) :
    ∃ calls known served, Opens values element attributes address program one other calls known served ∧
      ∀ (doc : Document η Property) (n : NodeId) (node : Document.Node η Property), doc.node? n = some node →
        node.attributes = known → ∀ name, isPlainKey name = true → name ≠ "" →
        valueUnder? served name = (valueUnder? known name).or ((assignments values name attributes).findSome? id) ∧
        (runStatements passed n calls doc).attribute? n name =
          lastOf (valueUnder? known name) (assignments values name attributes) ∧
        ((valueUnder? known name).toList.length + (assignments values name attributes).length ≤ 1 →
          (runStatements passed n calls doc).attribute? n name = valueUnder? served name) := by
  obtain ⟨target, opens⟩ := exists_opens tag lettered legible address program one other
  refine ⟨_, _, _, opens, fun doc n node found start name plain named => ?_⟩
  obtain ⟨-, -, -, notClass, notStyle⟩ := isPlainKey_iff.mp plain
  have kept : replaced attributes name = false := by simp [replaced, notClass, notStyle]
  have served : valueUnder? (addAttributes [] (printedAttributes values attributes)) name =
      (valueUnder? (addAttributes [] (knownOf attributes)) name).or ((assignments values name attributes).findSome? id) := by
    rw [valueUnder?_addAttributes _ _ named, valueUnder?_addAttributes _ _ named, nil_append, nil_append,
      valueUnder?_printed values kept fun _ _ _ => plain]
  have shown : (runStatements passed n (clientStatements target attributes) doc).attribute? n name =
      lastOf (valueUnder? (addAttributes [] (knownOf attributes)) name) (assignments values name attributes) := by
    have run : Assigns n name _ fun (doc : Document η Property) =>
        runStatements passed n (clientStatements target attributes) doc :=
      assigns_runStatements passed notClass notStyle fun _ _ _ => plain
    obtain ⟨after, edited, last⟩ := run found
    rw [attribute?_of_node? edited.result, last, flatMap_clientStatements passes target notClass notStyle, start]
  exact ⟨served, shown, fun once => by rw [served, shown, lastOf_of_one once]⟩

/-- A paragraph with an identifier and props that are spread over it. -/
def badge : List Attribute :=
  let span := Template.Span.mk ⟨0, 1, 1⟩ 0
  [.value .plain "id" (.ofText "a") span, .spread "q" span]

def badgeProps : List (String × Datum) := [("id", .text .fixed "b"), ("title", .text .fixed "c")]

def badgeValues : Values := ⟨fun _ => none, fun _ => badgeProps⟩

theorem legible_badge : badgeValues.Legible badge := by
  have readable : badgeProps.all (fun entry => entry.1.toList.all Piece.isNameChar) = true := by decide
  simp only [all_eq_true] at readable
  exact fun _ _ _ => readable

theorem spreads_take_precedence_badge :
    ∃ calls known served, Opens badgeValues labelElement badge [] .start ⟨.client, "rt", {}, []⟩ ⟨.server, "rt", {}, []⟩
        calls known served ∧
      valueUnder? served "id" = some "a" ∧ (runStatements badgeValues 0 calls (alone known)).attribute? 0 "id" = some "b" ∧
      (runStatements badgeValues 0 calls (alone known)).attribute? 0 "title" = valueUnder? served "title" := by
  have lettered : ∀ entry ∈ badge, entry.Lettered := by decide
  have passes : Passes badgeValues badgeValues badge := ⟨fun _ _ _ _ _ _ => rfl, fun _ _ _ => rfl⟩
  obtain ⟨calls, known, served, opens, said⟩ := spreads_take_precedence (η := Unit) readable_label lettered legible_badge passes [] .start
    ⟨.client, "rt", {}, []⟩ ⟨.server, "rt", {}, []⟩
  have printed := Option.some.inj (opens.printed.symm.trans (tagAttributes?_serverTag readable_label lettered legible_badge _))
  obtain ⟨-, spread, -⟩ := said (alone known) 0 _ rfl rfl "id" (by decide) (by decide)
  obtain ⟨-, titled, -⟩ := said (alone known) 0 _ rfl rfl "title" (by decide) (by decide)
  refine ⟨calls, known, served, opens, ?_, spread, ?_⟩
  · rw [printed]
    decide
  · have read : valueUnder? (addAttributes [] (printedAttributes badgeValues badge)) "title" = some "c" := by decide
    rw [titled, printed, read]
    rfl

/-- The server keeps the identifier that is written and the client takes the one that is spread. -/
theorem spread_identifier_differs :
    (∀ context, (tagAttributes? (serverTag badgeValues labelElement badge context)).map (valueUnder? · "id") =
        some (some "a")) ∧
      tagAttributes? (clientTag labelElement badge) = some [("id", "a")] ∧
      (runStatements badgeValues 0 (clientStatements "__el" badge) (alone [("id", "a")])).attribute? 0 "id" = some "b" := by
  have lettered : ∀ entry ∈ badge, entry.Lettered := by decide
  refine ⟨fun context => ?_, ?_, ?_⟩
  · rw [tagAttributes?_serverTag readable_label lettered legible_badge]
    decide
  · rw [tagAttributes?_clientTag readable_label lettered]
    decide
  · decide

end Targets

end LiveMarkup.Codegen
