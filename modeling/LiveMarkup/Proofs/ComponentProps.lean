import LiveMarkup.Proofs.WovenCalls

/-!
What a component is given. Its properties are put together from groups of named ones and from other props that are spread;
whatever stands between two spreads, evaluating this gives each name its last value, in the order in which the names stand
first.
-/

namespace LiveMarkup
open List Prod

section Entries

variable {α : Type} {entries : List (String × α)}

/-- Every name where it stands first, with the value that it has last. -/
def lastOfEach (entries : List (String × α)) : List (String × α) :=
  (entries.map Prod.fst).eraseDups.filterMap fun name => (valueUnder? entries.reverse name).map (name, ·)

def putEntries (entries before : List (String × α)) : List (String × α) :=
  entries.foldl (fun before entry => putEntry entry.1 entry.2 before) before

theorem eraseDups_concat (names : List String) (name : String) :
    (names ++ [name]).eraseDups = if name ∈ names then names.eraseDups else names.eraseDups ++ [name] := by
  rw [Codegen.Declarations.eraseDups_snoc names [name] le_rfl]
  by_cases there : name ∈ names <;> simp [there]

theorem eraseDups_eq_of_nodup {names : List String} (once : names.Nodup) : names.eraseDups = names := by
  induction names using reverseRecOn with
  | nil => rfl
  | append_singleton _ name ih =>
    obtain ⟨first, -, apart⟩ := nodup_append.mp once
    rw [eraseDups_concat, ih first, if_neg fun mem => apart name mem name (by simp) rfl]

theorem eraseDups_append_eraseDups (names more : List String) :
    (names ++ more.eraseDups).eraseDups = (names ++ more).eraseDups := by
  induction more using reverseRecOn with
  | nil => rfl
  | append_singleton more name ih =>
    rw [eraseDups_concat more, ← append_assoc, eraseDups_concat]
    by_cases there : name ∈ more
    · rw [if_pos there, ih, if_pos (mem_append_right _ there)]
    · rw [if_neg there, ← append_assoc, eraseDups_concat, ih]
      simp

theorem eraseDups_eraseDups_append (names more : List String) :
    (names.eraseDups ++ more).eraseDups = (names ++ more).eraseDups := by
  induction more using reverseRecOn with
  | nil => simpa using eraseDups_append_eraseDups [] names
  | append_singleton _ _ ih =>
    rw [← append_assoc, ← append_assoc, eraseDups_concat, eraseDups_concat, ih]
    simp

theorem nodup_keys_putEntries (entries : List (String × α)) : ((putEntries entries []).map fst).Nodup := by
  induction entries using reverseRecOn with
  | nil => exact nodup_nil
  | append_singleton _ entry ih => simpa [putEntries] using nodup_keys_putEntry ih entry.1 entry.2

theorem putEntries_concat (entries before : List (String × α)) (entry : String × α) :
    putEntries (entries ++ [entry]) before = putEntry entry.1 entry.2 (putEntries entries before) := by
  simp [putEntries]

theorem keys_putEntries (entries : List (String × α)) : (putEntries entries []).map fst = (entries.map fst).eraseDups := by
  induction entries using reverseRecOn with
  | nil => rfl
  | append_singleton _ _ ih =>
    rw [putEntries_concat, keys_putEntry, ih, map_append, map_singleton, eraseDups_concat]
    simp only [mem_eraseDups]

theorem valueUnder?_putEntries (entries : List (String × α)) (name : String) :
    valueUnder? (putEntries entries []) name = valueUnder? entries.reverse name := by
  induction entries using reverseRecOn with
  | nil => rfl
  | append_singleton _ entry ih =>
    rw [putEntries_concat, valueUnder?_putEntry, ih, reverse_append, reverse_singleton, singleton_append,
      Codegen.valueUnder?_cons]
    by_cases same : name = entry.1
    · simp [same]
    · simp [same, Ne.symm same]

theorem filterMap_valueUnder? (once : (entries.map fst).Nodup) :
    ((entries.map fst).filterMap fun name => (valueUnder? entries name).map (name, ·)) = entries := by
  induction entries with
  | nil => rfl
  | cons entry entries ih =>
    obtain ⟨absent, once⟩ := nodup_cons.mp once
    have later : ∀ name ∈ entries.map fst, valueUnder? (entry :: entries) name = valueUnder? entries name := by
      rintro _ mem
      rw [Codegen.valueUnder?_cons, if_neg (by rintro rfl; exact absent mem)]
    rw [map_cons, filterMap_cons, Codegen.valueUnder?_cons, if_pos rfl,
      filterMap_congr fun name mem => by rw [later name mem], ih once]
    rfl

theorem putEntries_eq_lastOfEach (entries : List (String × α)) : putEntries entries [] = lastOfEach entries := by
  rw [← filterMap_valueUnder? (nodup_keys_putEntries entries), keys_putEntries]
  simp only [valueUnder?_putEntries, lastOfEach]

theorem lastOfEach_eq_of_nodup (once : (entries.map fst).Nodup) : lastOfEach entries = entries := by
  simp only [lastOfEach, eraseDups_eq_of_nodup once, Codegen.valueUnder?_reverse once, filterMap_valueUnder? once]

theorem keys_lastOfEach (entries : List (String × α)) : (lastOfEach entries).map fst = (entries.map fst).eraseDups := by
  rw [← putEntries_eq_lastOfEach, keys_putEntries]

theorem valueUnder?_reverse_lastOfEach (entries : List (String × α)) (name : String) :
    valueUnder? (lastOfEach entries).reverse name = valueUnder? entries.reverse name := by
  rw [← putEntries_eq_lastOfEach, Codegen.valueUnder?_reverse (nodup_keys_putEntries entries), valueUnder?_putEntries]

theorem lastOfEach_append_lastOfEach (entries more : List (String × α)) :
    lastOfEach (entries ++ lastOfEach more) = lastOfEach (entries ++ more) := by
  unfold lastOfEach
  simp only [map_append, reverse_append, Codegen.valueUnder?_append, ← lastOfEach.eq_1 more, keys_lastOfEach,
    eraseDups_append_eraseDups, valueUnder?_reverse_lastOfEach]

theorem lastOfEach_lastOfEach_append (entries more : List (String × α)) :
    lastOfEach (lastOfEach entries ++ more) = lastOfEach (entries ++ more) := by
  unfold lastOfEach
  simp only [map_append, reverse_append, Codegen.valueUnder?_append, ← lastOfEach.eq_1 entries, keys_lastOfEach,
    eraseDups_eraseDups_append, valueUnder?_reverse_lastOfEach]

theorem lastOfEach_flatten (sources : List (List (String × α))) :
    lastOfEach (sources.map lastOfEach).flatten = lastOfEach sources.flatten := by
  induction sources with
  | nil => rfl
  | cons _ _ ih =>
    rw [map_cons, flatten_cons, flatten_cons, lastOfEach_lastOfEach_append, ← lastOfEach_append_lastOfEach,
      ih, lastOfEach_append_lastOfEach]

end Entries

end LiveMarkup

namespace LiveMarkup.Live.Props

variable {γ : Type}

theorem merge_eq (sources : List (Props γ)) : merge sources = lastOfEach sources.flatten := by
  rw [← putEntries_eq_lastOfEach, putEntries, List.foldl_flatten]
  rfl

theorem merge_assoc (a b c : Props γ) : merge [merge [a, b], c] = merge [a, merge [b, c]] := by
  simp only [merge_eq, List.flatten_cons, List.flatten_nil, List.append_nil, lastOfEach_lastOfEach_append,
    lastOfEach_append_lastOfEach, List.append_assoc]

end LiveMarkup.Live.Props

namespace LiveMarkup.Codegen
open Blueprint Live List

inductive PropsCall where
  | set (name code : String)
  | getter (name code : String)
  | children (code : String)

/-- What stands for props: a new group with calls on it, or a passage of the template. -/
inductive PropsSource where
  | group (calls : List PropsCall)
  | spread (code : String)

def PropsCall.render : PropsCall → String
  | .set name code => ".set(" ++ stringLiteral name ++ ", " ++ code ++ ")"
  | .getter name code => ".getter(" ++ stringLiteral name ++ ", " ++ code ++ ")"
  | .children code => ".children(" ++ code ++ ")"

def PropsSource.render : PropsSource → String
  | .group calls => "__Props::new()" ++ String.join (calls.map PropsCall.render)
  | .spread code => code

/-- The expression for the props that several sources give together. -/
def renderProps : List PropsSource → String
  | [] => "__Props::new()"
  | [source] => source.render
  | sources => "__merge_props(vec![" ++ ", ".intercalate (sources.map PropsSource.render) ++ "])"

def addCall (call : PropsCall) : List PropsSource → List PropsSource
  | [] => [.group [call]]
  | [.group calls] => [.group (calls ++ [call])]
  | source :: rest => source :: addCall call rest

def callFor (name : String) (given : Value) : PropsCall :=
  if given.observable then .getter name given.emit else .set name given.code

def addGiven (sources : List PropsSource) : Attribute → List PropsSource
  | .value _ name given _ => addCall (callFor name given) sources
  | .spread code _ => sources ++ [.spread code]
  | _ => sources

/-- The sources of a component's props, as calls instead of texts. -/
def propsSources (attributes : List Attribute) (children : Option String) : List PropsSource :=
  let named := attributes.foldl addGiven []
  match children with
  | some code => addCall (.children ("move || " ++ code)) named
  | none => named

def PropsSource.written : PropsSource → PropertySource
  | .group calls => .group (calls.map PropsCall.render)
  | .spread code => .spread code

theorem render_callFor (name : String) (given : Value) : (callFor name given).render = propertyEntry name given := by
  unfold callFor propertyEntry
  split <;> rfl

theorem addCall_cons (call : PropsCall) (source next : PropsSource) (rest : List PropsSource) :
    addCall call (source :: next :: rest) = source :: addCall call (next :: rest) := by
  cases source <;> rfl

theorem written_addCall (call : PropsCall) (sources : List PropsSource) :
    (addCall call sources).map PropsSource.written = addToGroup call.render (sources.map PropsSource.written) := by
  induction sources with
  | nil => rfl
  | cons source sources ih =>
    cases sources with
    | nil => cases source <;> simp [addCall, PropsSource.written, addToGroup]
    | cons =>
      rw [addCall_cons, map_cons, ih, map_cons, map_cons, map_cons, addToGroup_cons]

theorem written_foldl (attrs : List Attribute) (sources : List PropsSource) :
    (attrs.foldl addGiven sources).map PropsSource.written =
      attrs.foldl addSource (sources.map PropsSource.written) := by
  induction attrs generalizing sources with
  | nil => rfl
  | cons entry _ ih =>
    rw [foldl_cons, foldl_cons, ih]
    congr 1
    cases entry with
    | value => rw [addGiven, written_addCall, render_callFor, addSource]
    | spread => simp [addGiven, addSource, PropsSource.written]
    | _ => rfl

theorem written_propsSources (attrs : List Attribute) (children : Option String) :
    (propsSources attrs children).map PropsSource.written = propertySources attrs children := by
  cases children with
  | none => exact written_foldl attrs []
  | some code =>
    have text : (PropsCall.children ("move || " ++ code)).render = ".children(move || " ++ code ++ ")" := by
      rw [PropsCall.render, ← String.append_assoc]
      rfl
    rw [propsSources, written_addCall, written_foldl, text]
    rfl

theorem render_written (source : PropsSource) : source.written.render "__Props" = source.render := by
  cases source <;> rfl

theorem componentCall_render (path : String) (attrs : List Attribute) (children : Option String) (context : Context) :
    (componentCall path attrs children context).1 =
      "__create_component(" ++ path ++ ", " ++ renderProps (propsSources attrs children) ++ ")" := by
  have texts : (propertySources attrs children).map (PropertySource.render "__Props") =
      (propsSources attrs children).map PropsSource.render := by
    rw [← written_propsSources, map_map]
    exact map_congr_left fun source _ => render_written source
  show ((do
    let given ← mergedSources "__Props" ((propertySources attrs children).map (PropertySource.render "__Props"))
    let create ← Gen.runtime "create_component"
    return create ++ "(" ++ path ++ ", " ++ given ++ ")" : Gen String) (Gen.runtime "Props" context).2).1 = _
  rw [texts]
  match propsSources attrs children with
  | [] => rfl
  | [_] => rfl
  | _ :: _ :: _ => rfl

section Evaluation

/-- What the passages of a template give where they are evaluated. Props hold no name twice. -/
structure PassageMeaning (m : Type → Type) (γ : Type) where
  value : String → m Datum
  function : String → m γ
  props : String → m {props : Props γ // (props.map Prod.fst).Nodup}

variable {m : Type → Type} [Monad m] {γ : Type} (meaning : PassageMeaning m γ)

def PropsCall.entry : PropsCall → m (String × Entry γ)
  | .set name code => do return (name, .value (← meaning.value code))
  | .getter name code => do return (name, .getter (← meaning.function code))
  | .children code => do return ("children", .children (← meaning.function code))

def PropsSource.evaluate : PropsSource → m (Props γ)
  | .group calls => calls.foldlM (fun props call => do
      let added ← call.entry meaning
      return props.set added.1 added.2) []
  | .spread code => do return (← meaning.props code).val

/-- The props that an expression gives, evaluated from left to right. -/
def evaluateProps : List PropsSource → m (Props γ)
  | [] => pure []
  | [source] => source.evaluate meaning
  | sources => do return Props.merge (← sources.mapM (PropsSource.evaluate meaning))

def attributeEntries : Attribute → m (Props γ)
  | .value _ name given _ =>
    if given.observable then do return [(name, .getter (← meaning.function given.emit))]
    else do return [(name, .value (← meaning.value given.code))]
  | .spread code _ => do return (← meaning.props code).val
  | _ => pure []

def childrenEntries : Option String → m (Props γ)
  | some code => do return [("children", .children (← meaning.function ("move || " ++ code)))]
  | none => pure []

/-- All that a component is given, in the order of the template; the children come last. -/
def givenEntries (attributes : List Attribute) (children : Option String) : m (Props γ) := do
  let each ← attributes.mapM (attributeEntries meaning)
  return each.flatten ++ (← childrenEntries meaning children)

def PropsSource.entries : PropsSource → m (Props γ)
  | .group calls => calls.mapM (PropsCall.entry meaning)
  | .spread code => do return (← meaning.props code).val

def allEntries (sources : List PropsSource) : m (Props γ) :=
  flatten <$> sources.mapM (PropsSource.entries meaning)

variable [LawfulMonad m]

theorem foldlM_set (calls : List PropsCall) (before : Props γ) : calls.foldlM (fun props call => do
      let added ← call.entry meaning
      return Props.set props added.1 added.2) before = (putEntries · before) <$> calls.mapM (PropsCall.entry meaning) := by
  induction calls generalizing before with
  | nil => simp [putEntries]
  | cons _ _ ih =>
    rw [foldlM_cons, mapM_cons, bind_assoc, map_bind]
    refine bind_congr fun added => ?_
    rw [pure_bind, ih]
    simp [putEntries, Props.set]

theorem evaluate_source (source : PropsSource) : source.evaluate meaning = lastOfEach <$> source.entries meaning := by
  cases source with
  | group =>
    rw [PropsSource.evaluate, foldlM_set, PropsSource.entries]
    simp only [putEntries_eq_lastOfEach]
  | spread =>
    rw [PropsSource.evaluate, PropsSource.entries, map_bind]
    refine bind_congr fun props => ?_
    rw [map_pure, lastOfEach_eq_of_nodup props.property]

theorem mapM_evaluate (sources : List PropsSource) :
    sources.mapM (PropsSource.evaluate meaning) = map lastOfEach <$> sources.mapM (PropsSource.entries meaning) := by
  induction sources with
  | nil => simp
  | cons _ _ ih => simp [ih, evaluate_source]

theorem evaluateProps_eq (sources : List PropsSource) :
    evaluateProps meaning sources = lastOfEach <$> allEntries meaning sources := by
  match sources with
  | [] => simp [evaluateProps, allEntries, lastOfEach]
  | [source] => simp [evaluateProps, allEntries, evaluate_source]
  | first :: second :: rest =>
    have merged (each : List (Props γ)) : Props.merge (each.map lastOfEach) = lastOfEach each.flatten := by
      rw [Props.merge_eq, lastOfEach_flatten]
    simp only [evaluateProps, mapM_evaluate, allEntries, bind_pure_comp, Functor.map_map, merged]

theorem allEntries_cons (source : PropsSource) (rest : List PropsSource) :
    allEntries meaning (source :: rest) = do return (← source.entries meaning) ++ (← allEntries meaning rest) := by
  simp [allEntries]

theorem allEntries_addCall (call : PropsCall) (sources : List PropsSource) :
    allEntries meaning (addCall call sources) = do
      let before ← allEntries meaning sources
      return before ++ [← call.entry meaning] := by
  induction sources with
  | nil => simp [addCall, allEntries, PropsSource.entries]
  | cons source sources ih =>
    cases sources with
    | nil => cases source <;> simp [addCall, allEntries, PropsSource.entries]
    | cons =>
      rw [addCall_cons, allEntries_cons, ih, allEntries_cons meaning source]
      simp only [bind_assoc, pure_bind, append_assoc]

theorem allEntries_foldl (attrs : List Attribute) (sources : List PropsSource) :
    allEntries meaning (attrs.foldl addGiven sources) = do
      let before ← allEntries meaning sources
      let each ← attrs.mapM (attributeEntries meaning)
      return before ++ each.flatten := by
  induction attrs generalizing sources with
  | nil => simp
  | cons entry _ ih =>
    have first : allEntries meaning (addGiven sources entry) = do
        let before ← allEntries meaning sources
        return before ++ (← attributeEntries meaning entry) := by
      cases entry with
      | value _ _ given =>
        rw [addGiven, allEntries_addCall, attributeEntries, callFor]
        cases given.observable <;> simp [PropsCall.entry]
      | spread => simp [addGiven, allEntries, PropsSource.entries, attributeEntries]
      | _ => simp [addGiven, attributeEntries]
    rw [foldl_cons, ih, first]
    simp

theorem allEntries_propsSources (attrs : List Attribute) (children : Option String) :
    allEntries meaning (propsSources attrs children) = givenEntries meaning attrs children := by
  have none : allEntries meaning [] = pure [] := by simp [allEntries]
  cases children with
  | none => simp [propsSources, allEntries_foldl, none, givenEntries, childrenEntries]
  | some => simp [propsSources, allEntries_addCall, allEntries_foldl, none, givenEntries, childrenEntries, PropsCall.entry]

/-- The call that stands for a component is given props in which every name has what it is given last, in the order in which
the names come first. Props that are put together in several steps are merged in any grouping. -/
theorem component_properties_last_win (path : String) (attributes : List Attribute) (children : Option String)
    (context : Context) :
    (componentCall path attributes children context).1 =
      "__create_component(" ++ path ++ ", " ++ renderProps (propsSources attributes children) ++ ")" ∧
    evaluateProps meaning (propsSources attributes children) = lastOfEach <$> givenEntries meaning attributes children ∧
    ∀ a b c : Props γ, Props.merge [Props.merge [a, b], c] = Props.merge [a, Props.merge [b, c]] :=
  ⟨componentCall_render path attributes children context,
    by rw [evaluateProps_eq, allEntries_propsSources], Props.merge_assoc⟩

def cardAttributes : List Attribute :=
  let span := default
  [.value .plain "title" ⟨"first", none, false, none⟩ span, .value .plain "size" ⟨"size()", none, true, some "size"⟩ span,
    .spread "rest" span, .value .plain "title" ⟨"last", none, false, none⟩ span]

def notedPassage : PassageMeaning (StateM (List String)) String where
  value code noted := (.string code, noted ++ [code])
  function code noted := (code, noted ++ [code])
  props code noted := (⟨[("note", .value .unit), ("size", .value (.bool true))], by decide⟩, noted ++ [code])

theorem component_properties_last_win_card :
    (componentCall "Card" cardAttributes (some "body") (.ofOptions {})).1 = "__create_component(Card, __merge_props(vec![" ++
      "__Props::new().set(\"title\", first).getter(\"size\", size), rest, " ++
      "__Props::new().set(\"title\", last).children(move || body)]))" ∧
    evaluateProps notedPassage (propsSources cardAttributes (some "body")) [] =
      ([("title", .value (.string "last")), ("size", .value (.bool true)), ("note", .value .unit),
        ("children", .children "move || body")], ["first", "size", "rest", "last", "move || body"]) := by
  obtain ⟨text, given, -⟩ :=
    component_properties_last_win notedPassage "Card" cardAttributes (some "body") (.ofOptions {})
  exact ⟨text.trans rfl, (congrFun given []).trans rfl⟩

end Evaluation

end LiveMarkup.Codegen
