import LiveMarkup.Proofs.Execution
import LiveMarkup.Proofs.OpenTags
import LiveMarkup.Proofs.Styles

/-!
What the calls of the client's program make of the attributes of an element. They run one after the other on an element
that has the attributes of its open tag, so that of a plain name the last call counts; whole classes and styles come before
the calls that toggle parts of them.
-/

namespace LiveMarkup.Live
open Text Markup Document

/-- What giving an attribute another value makes of the attributes, with the toggles that are remembered. -/
def bindAttributeIn (name : String) (value : Option String) (toggles : Option Toggles) (attributes : Attributes) : Attributes :=
  let attributes := withAttribute name value attributes
  match toggles with
  | none => attributes
  | some toggles =>
    if name = "class" then
      normalizeIn "class" normalClass
        (toggles.classes.foldl (fun attributes (name, present) => toggleClassIn name present attributes) attributes)
    else if name = "style" then
      normalizeIn "style" normalStyle
        (toggles.styles.foldl (fun attributes (name, value) => setStyleIn name value attributes) attributes)
    else attributes

section Elements

variable {η : Type} {doc : Document η Property} {n : NodeId} {node : Node η Property}

theorem edited_foldl {α : Type} (step : Document η Property → α → Document η Property) (change : Attributes → α → Attributes)
    (each : ∀ {doc : Document η Property} {node : Node η Property} (item : α), doc.node? n = some node →
      Edited doc (step doc item) n node { node with attributes := change node.attributes item })
    (items : List α) (found : doc.node? n = some node) :
    Edited doc (items.foldl step doc) n node { node with attributes := items.foldl change node.attributes } := by
  induction items generalizing doc node with
  | nil => exact .refl found
  | cons item _ ih =>
    have first := each item found
    exact first.trans (ih first.result)

theorem edited_bindAttribute_written (found : doc.node? n = some node) (name : String) (value : Option String) :
    Edited doc (bindAttribute doc n name value) n node
      { node with attributes := bindAttributeIn name value (togglesIn node.properties) node.attributes } := by
  obtain ⟨next, written, set⟩ : ∃ next,
      bindAttribute doc n name value = (match toggles? next n with
        | none => next
        | some toggles =>
          if name = "class" then
            normalizeAttribute (toggles.classes.foldl (fun doc (name, present) => doc.toggleClass n name present) next) n
              "class" normalClass
          else if name = "style" then
            normalizeAttribute (toggles.styles.foldl (fun doc (name, value) => doc.setStyle n name value) next) n
              "style" normalStyle
          else next) ∧
      Edited doc next n node { node with attributes := withAttribute name value node.attributes } := by
    cases value with
    | none | some => exact ⟨_, rfl, edited_modifyNode found _⟩
  rw [written, toggles?_of_node? set.result]
  unfold bindAttributeIn
  dsimp only
  cases togglesIn node.properties with
  | none => exact set
  | some toggles =>
    dsimp only
    split
    · have toggled := edited_foldl (fun doc (item : String × Bool) => doc.toggleClass n item.1 item.2)
        (fun attributes item => toggleClassIn item.1 item.2 attributes)
        (fun item found => edited_toggleClass found item.1 item.2) toggles.classes set.result
      exact (set.trans toggled).trans (edited_normalizeAttribute toggled.result "class" normalClass)
    · split
      · have styled := edited_foldl (fun doc (item : String × Option String) => doc.setStyle n item.1 item.2)
          (fun attributes item => setStyleIn item.1 item.2 attributes)
          (fun item found => edited_setStyle found item.1 item.2) toggles.styles set.result
        exact (set.trans styled).trans (edited_normalizeAttribute styled.result "style" normalStyle)
      · exact set

end Elements

section Others

variable {name : String}

theorem valueUnder?_normalizeIn_of_ne {list : String} (apart : name ≠ list) (normal : String → String)
    (attrs : Attributes) : valueUnder? (normalizeIn list normal attrs) name = valueUnder? attrs name := by
  unfold normalizeIn
  split
  · rfl
  · rw [valueUnder?_withAttribute, if_neg apart]

theorem valueUnder?_toggleClassIn_of_ne (apart : name ≠ "class") (toggle : String) (present : Bool)
    (attrs : Attributes) : valueUnder? (toggleClassIn toggle present attrs) name = valueUnder? attrs name := by
  unfold toggleClassIn
  dsimp only
  split
  · rfl
  · rw [valueUnder?_withAttribute, if_neg apart]

theorem valueUnder?_setStyleIn_of_ne (apart : name ≠ "style") (property : String) (value : Option String)
    (attrs : Attributes) : valueUnder? (setStyleIn property value attrs) name = valueUnder? attrs name := by
  unfold setStyleIn
  dsimp only
  split
  · rw [valueUnder?_withAttribute, if_neg apart]
  · split
    · rw [valueUnder?_withAttribute, if_neg apart]
    · rfl

theorem valueUnder?_foldl {α : Type} {change : Attributes → α → Attributes}
    (each : ∀ attrs item, valueUnder? (change attrs item) name = valueUnder? attrs name)
    (items : List α) (attrs : Attributes) :
    valueUnder? (items.foldl change attrs) name = valueUnder? attrs name := by
  induction items generalizing attrs with
  | nil => rfl
  | cons item _ ih => exact (ih _).trans (each attrs item)

theorem valueUnder?_bindAttributeIn (notClass : name ≠ "class") (notStyle : name ≠ "style") (bound : String)
    (value : Option String) (toggles : Option Toggles) (attrs : Attributes) :
    valueUnder? (bindAttributeIn bound value toggles attrs) name =
      if name = bound then value else valueUnder? attrs name := by
  rw [← valueUnder?_withAttribute]
  unfold bindAttributeIn
  cases toggles with
  | none => rfl
  | some =>
    dsimp only
    split
    · rw [valueUnder?_normalizeIn_of_ne notClass,
        valueUnder?_foldl fun attrs (toggle, present) => valueUnder?_toggleClassIn_of_ne notClass toggle present attrs]
    · split
      · rw [valueUnder?_normalizeIn_of_ne notStyle,
          valueUnder?_foldl fun attrs (property, value) => valueUnder?_setStyleIn_of_ne notStyle property value attrs]
      · rfl

end Others

end LiveMarkup.Live

namespace LiveMarkup.Codegen
open Blueprint Document Live Markup List

section Calls

variable {η : Type} {program : ClientProgram}

def bindingOf? (kind : AttributeKind) (name : String) : Option Binding :=
  match kind with
  | .plain => some (.plain name)
  | .toggle => some (.toggle name)
  | .style => some (.style name)
  | .customProperty => some (.customProperty name)
  | .property => none

/-- Spreads entries with given values over an element, whole classes and styles first. -/
def applyEntries (n : NodeId) (entries : List (String × Datum)) (doc : Document η Property) : Document η Property :=
  let whole (entry : String × Datum) : Bool := entry.1 == "class" || entry.1 == "style"
  ((entries.filter whole ++ entries.filter fun entry => !whole entry).filter (·.1 != "children")).foldl
    (fun doc entry => applyEntry n entry.1 entry.2 doc) doc

def Statement.apply (values : Values) (n : NodeId) (doc : Document η Property) : Statement → Document η Property
  | .bind kind _ name code =>
    match bindingOf? kind name with
    | some binding => binding.apply n (values.text code) doc
    | none => doc
  | .spread _ code => applyEntries n (values.entries code) doc
  | _ => doc

def runStatements (values : Values) (n : NodeId) (statements : List Statement) (doc : Document η Property) :
    Document η Property := statements.foldl (fun doc statement => statement.apply values n doc) doc

def clientTag (element : Blueprint.Element) (attributes : List Attribute) : String :=
  "<" ++ element.tag ++ written (knownOf attributes) ++ ">"

def clientStatements (target : String) (attributes : List Attribute) : List Statement :=
  orderStatements [] [] false (attributes.filterMap (attributeStatement? target))

def endTag (element : Blueprint.Element) : String := if element.isVoid then "" else "</" ++ element.tag ++ ">"

theorem makes_opening {address : Address} {element : Blueprint.Element} {attrs : List Attribute} {inner : ClientGen Unit}
    {post : ClientProgram → Prop}
    (within : ∀ target middle, middle.statements = program.statements ++ clientStatements target attrs →
      middle.html = program.html ++ clientTag element attrs → Makes inner middle fun _ after => post after) :
    Makes (clientElement address element attrs inner) program fun _ after =>
      ∃ between, post between ∧ after.statements = between.statements ∧
        after.html = between.html ++ endTag element := by
  refine (makes_clientElement
    (fun start => ∃ target, start.statements = program.statements ++ clientStatements target attrs ∧
      start.html = program.html) post (fun _ => ?_) (fun still => ⟨"", ?_, rfl⟩) ?_).mono ?_
  · refine (makes_reach_same "__el" address).mono ?_
    rintro target _ ⟨html, calls⟩
    exact ⟨target, by rw [calls]; rfl, html⟩
  · have none : attrs.filterMap (attributeStatement? "") = [] := by
      rw [filterMap_eq_nil_iff]
      intro entry mem
      have fixed : entry.dynamic = false := by simp_all
      rw [← Option.not_isSome_iff_eq_none, isSome_attributeStatement?, fixed]
      exact Bool.false_ne_true
    rw [clientStatements, none]
    exact (append_nil _).symm
  · rintro _ ⟨target, calls, html⟩
    exact within target _ calls (congrArg (· ++ clientTag element attrs) html)
  · rintro _ _ ⟨between, holds, rfl⟩
    exact ⟨between, holds, rfl, rfl⟩

end Calls

variable {statement : Statement}

section Plain

variable {η : Type} {n : NodeId} {name : String} {α : Type}
variable {step : Document η Property → α → Document η Property} {items : List α}

/-- A change turns the value of a name at an element into another one, and changes nothing elsewhere. -/
def Turns (n : NodeId) (name : String) (effect : Option String → Option String)
    (change : Document η Property → Document η Property) : Prop :=
  ∀ ⦃doc : Document η Property⦄ ⦃node : Document.Node η Property⦄, doc.node? n = some node →
    ∃ after, Edited doc (change doc) n node after ∧
      valueUnder? after.attributes name = effect (valueUnder? node.attributes name)

theorem turns_foldl {effect : Option String → α → Option String}
    (each : ∀ item ∈ items, Turns n name (effect · item) fun doc => step doc item) :
    Turns n name (items.foldl effect) fun doc => items.foldl step doc := by
  intro doc node found
  induction items generalizing doc node with
  | nil => exact ⟨node, .refl found, rfl⟩
  | cons item _ ih =>
    obtain ⟨_, first, shown⟩ := each item mem_cons_self found
    obtain ⟨after, rest, last⟩ := ih (fun other mem => each other (mem_cons_of_mem item mem)) first.result
    exact ⟨after, first.trans rest, last.trans (by rw [shown]; rfl)⟩

abbrev Assigns (n : NodeId) (name : String) (given : List (Option String))
    (change : Document η Property → Document η Property) : Prop := Turns n name (lastOf · given) change

theorem lastOf_append (initial : Option String) (first second : List (Option String)) :
    lastOf initial (first ++ second) = lastOf (lastOf initial first) second := foldl_append

theorem foldl_lastOf (given : α → List (Option String)) (items : List α) (initial : Option String) :
    items.foldl (fun value item => lastOf value (given item)) initial = lastOf initial (items.flatMap given) :=
  foldl_flatMap.symm

theorem assigns_foldl {given : α → List (Option String)}
    (each : ∀ item ∈ items, Assigns n name (given item) fun doc => step doc item) :
    Assigns n name (items.flatMap given) fun doc => items.foldl step doc := by
  intro doc node found
  obtain ⟨after, edited, shown⟩ := turns_foldl each found
  exact ⟨after, edited, shown.trans (foldl_lastOf given items _)⟩

theorem assigns_bindAttribute (notClass : name ≠ "class") (notStyle : name ≠ "style") (bound : String)
    (value : Option String) :
    Assigns n name (if bound = name then [value] else []) fun (doc : Document η Property) => bindAttribute doc n bound value := by
  intro doc node found
  refine ⟨_, edited_bindAttribute_written found bound value, ?_⟩
  rw [valueUnder?_bindAttributeIn notClass notStyle]
  by_cases same : bound = name
  · rw [if_pos same.symm, if_pos same]
    rfl
  · rw [if_neg fun h => same h.symm, if_neg same]
    rfl

theorem assigns_bindClass (notClass : name ≠ "class") (toggle : String) (present : Bool) :
    Assigns n name [] fun (doc : Document η Property) => bindClass doc n toggle present := by
  intro doc node found
  refine ⟨_, edited_bindClass_written found toggle present, ?_⟩
  dsimp only
  rw [valueUnder?_normalizeIn_of_ne notClass, valueUnder?_toggleClassIn_of_ne notClass]
  rfl

theorem assigns_bindStyle (notStyle : name ≠ "style") (property : String) (value : Option String) :
    Assigns n name [] fun (doc : Document η Property) => bindStyle doc n property value := by
  intro doc node found
  refine ⟨_, edited_bindStyle_written found property value, ?_⟩
  dsimp only
  rw [valueUnder?_normalizeIn_of_ne notStyle, valueUnder?_setStyleIn_of_ne notStyle]
  rfl

theorem assigns_same (n : NodeId) (name : String) : Assigns n name [] fun (doc : Document η Property) => doc :=
  fun _ node found => ⟨node, .refl found, rfl⟩

theorem isPlainKey_iff : isPlainKey name = true ↔ (name ≠ "children" ∧ Props.afterStart? "on:" name = none ∧
    Props.afterStart? "capture:" name = none ∧ Props.afterStart? "prop:" name = none) ∧
    Props.afterStart? "class:" name = none ∧ Props.afterStart? "style:" name = none ∧ name ≠ "class" ∧ name ≠ "style" := by
  simp [isPlainKey, Props.isClientOnly, and_assoc]

theorem ne_of_afterStart? {start key rest : String} (none : Props.afterStart? start name = none)
    (here : Props.afterStart? start key = some rest) : key ≠ name := by
  rintro rfl
  exact Option.some_ne_none rest (here.symm.trans none)

theorem assigns_applyEntry (plain : isPlainKey name = true) (key : String) (datum : Datum) :
    Assigns n name (if key = name then [datum.entryText?] else [])
      fun (doc : Document η Property) => applyEntry n key datum doc := by
  obtain ⟨⟨-, -, -, noProperty⟩, noToggle, noStyleKey, notClass, notStyle⟩ := isPlainKey_iff.mp plain
  unfold applyEntry
  cases here : Props.afterStart? "prop:" key with
  | some =>
    rw [if_neg (ne_of_afterStart? noProperty here)]
    exact fun _ _ found => ⟨_, edited_modifyNode found _, rfl⟩
  | none =>
    cases here : Props.afterStart? "class:" key with
    | some toggle =>
      rw [if_neg (ne_of_afterStart? noToggle here)]
      exact assigns_bindClass notClass toggle _
    | none =>
      cases here : Props.afterStart? "style:" key with
      | some property =>
        rw [if_neg (ne_of_afterStart? noStyleKey here)]
        exact assigns_bindStyle notStyle property _
      | none => exact assigns_bindAttribute notClass notStyle key _

theorem flatMap_if {β : Type} (p : α → Prop) [DecidablePred p] (f : α → β) (items : List α) :
    (items.flatMap fun item => if p item then [f item] else []) = (items.filter fun item => decide (p item)).map f := by
  induction items with
  | nil => rfl
  | cons item _ ih =>
    rw [flatMap_cons, ih, filter_cons]
    by_cases here : p item <;> simp [here]

theorem assigns_applyEntries (plain : isPlainKey name = true) (entries : List (String × Datum)) :
    Assigns n name ((entries.filter (·.1 == name)).map (·.2.entryText?))
      fun (doc : Document η Property) => applyEntries n entries doc := by
  obtain ⟨⟨notChildren, -⟩, -, -, notClass, notStyle⟩ := isPlainKey_iff.mp plain
  let whole (entry : String × Datum) : Bool := entry.1 == "class" || entry.1 == "style"
  have first : ((entries.filter whole).filter (·.1 != "children")).filter (fun entry => decide (entry.1 = name)) = [] := by
    rw [filter_filter, filter_filter, filter_eq_nil_iff]
    rintro ⟨_, _⟩ -
    simp only [whole, Bool.and_eq_true, decide_eq_true_eq, Bool.or_eq_true, beq_iff_eq]
    rintro ⟨⟨rfl, -⟩, rfl | rfl⟩
    · exact notClass rfl
    · exact notStyle rfl
  have later : ((entries.filter fun entry => !whole entry).filter (·.1 != "children")).filter
      (fun entry => decide (entry.1 = name)) = entries.filter (·.1 == name) := by
    rw [filter_filter, filter_filter]
    refine filter_congr fun entry _ => ?_
    by_cases same : entry.1 = name
    · simp [whole, same, notChildren, notClass, notStyle]
    · simp [same]
  have ordered : ((entries.filter whole ++ entries.filter fun entry => !whole entry).filter (·.1 != "children")).filter
      (fun entry => decide (entry.1 = name)) = entries.filter (·.1 == name) := by
    rw [filter_append, filter_append, first, later, nil_append]
  rw [← ordered, ← flatMap_if (fun entry : String × Datum => entry.1 = name) fun entry => entry.2.entryText?]
  exact assigns_foldl fun entry _ => assigns_applyEntry plain entry.1 entry.2

def Statement.assigned (values : Values) (name : String) : Statement → List (Option String)
  | .bind .plain _ n code => if n = name then [values.text code] else []
  | .spread _ code => ((values.entries code).filter (·.1 == name)).map (·.2.entryText?)
  | _ => []

theorem assigns_statement (values : Values) (notClass : name ≠ "class") (notStyle : name ≠ "style")
    (keys : ∀ target code, statement = .spread target code → isPlainKey name = true) :
    Assigns n name (statement.assigned values name)
      fun (doc : Document η Property) => statement.apply values n doc := by
  cases statement with
  | bind kind _ bound =>
    cases kind with
    | plain => exact assigns_bindAttribute notClass notStyle bound _
    | toggle => exact assigns_bindClass notClass bound _
    | style => exact assigns_bindStyle notStyle bound _
    | customProperty => exact assigns_bindStyle notStyle _ _
    | property => exact assigns_same n name
  | spread target code => exact assigns_applyEntries (keys target code rfl) _
  | _ => exact assigns_same n name

theorem assigns_runStatements (values : Values) (notClass : name ≠ "class") (notStyle : name ≠ "style")
    {statements : List Statement} (keys : ∀ target code, .spread target code ∈ statements → isPlainKey name = true) :
    Assigns n name (statements.flatMap (Statement.assigned values name))
      fun (doc : Document η Property) => runStatements values n statements doc :=
  assigns_foldl fun _ mem =>
    assigns_statement values notClass notStyle fun target code same => keys target code (same ▸ mem)

end Plain

theorem flatMap_orderStatements {α : Type} (f : Statement → List α) (nothing : ∀ statement, statement.isBase = true → f statement = [])
    (early late : List Statement) (toggled : Bool) (start : toggled = false → late = []) (statements : List Statement) :
    (orderStatements early late toggled statements).flatMap f = (early ++ late ++ statements).flatMap f := by
  fun_induction orderStatements early late toggled statements with
  | case1 => rw [append_nil]
  | case2 _ _ _ _ _ _ later ih =>
    rw [ih fun none => by simp [none] at later]
    simp [flatMap_append]
  | case3 _ _ before statement _ toggled later ih =>
    cases moved : toggled with
    | false =>
      have unstarted : before = false := by simp_all [toggled]
      rw [moved] at ih
      rw [ih fun _ => start unstarted, start unstarted]
      simp [flatMap_append]
    | true =>
      have base : statement.isBase = true := by simpa [moved] using later
      rw [moved] at ih
      rw [ih fun none => by cases none]
      simp [flatMap_append, nothing statement base]

theorem isToggle_of_isBase (base : statement.isBase = true) : statement.isToggle = false := by
  cases statement with
  | bind kind =>
    cases kind with
    | plain => rfl
    | _ => cases base
  | _ => cases base

theorem orderStatements_split (early late : List Statement) (toggled : Bool) (statements : List Statement)
    (noToggle : ∀ statement ∈ early, statement.isToggle = false) (noBase : ∀ statement ∈ late, statement.isBase = false) :
    ∃ front back, orderStatements early late toggled statements = front ++ back ∧
      (∀ statement ∈ front, statement.isToggle = false) ∧ (∀ statement ∈ back, statement.isBase = false) ∧
      front.filter Statement.isBase = (early ++ statements).filter Statement.isBase ∧
      back.filter Statement.isToggle = (late ++ statements).filter Statement.isToggle := by
  fun_induction orderStatements early late toggled statements with
  | case1 _ early late => exact ⟨early, late, rfl, noToggle, noBase, by rw [append_nil], by rw [append_nil]⟩
  | case2 _ _ _ statement _ _ _ ih =>
    have base : statement.isBase = false := by simp_all
    obtain ⟨front, back, same, first, second, bases, toggles⟩ := ih noToggle fun other mem => by
      rcases mem_append.mp mem with old | new
      · exact noBase other old
      · rwa [mem_singleton.mp new]
    refine ⟨front, back, same, first, second, bases.trans ?_, toggles.trans ?_⟩
    · rw [filter_append, filter_append, filter_cons_of_neg (by simp [base])]
    · rw [append_assoc, singleton_append]
  | case3 _ _ _ statement _ toggled _ ih =>
    have toggle : statement.isToggle = false := by
      cases base : statement.isBase with
      | true => exact isToggle_of_isBase base
      | false => simp_all [toggled]
    obtain ⟨front, back, same, first, second, bases, toggles⟩ := ih (fun other mem => by
      rcases mem_append.mp mem with old | new
      · exact noToggle other old
      · rwa [mem_singleton.mp new]) noBase
    refine ⟨front, back, same, first, second, bases.trans ?_, toggles.trans ?_⟩
    · rw [append_assoc, singleton_append]
    · rw [filter_append, filter_append, filter_cons_of_neg (by simp [toggle])]

section Lists

variable {η : Type} {n : NodeId} {statements : List Statement} {name : String} {α : Type}
variable {initial : Option String} {items : List α} {β : Type}

theorem turns_front (values : Values) (noToggle : ∀ statement ∈ statements, statement.isToggle = false)
    (noSpread : ∀ target code, .spread target code ∉ statements) {doc : Document η Property} {node : Document.Node η Property}
    (found : doc.node? n = some node) (fresh : togglesIn node.properties = none) :
    ∃ after, Edited doc (runStatements values n statements doc) n node after ∧
      ∀ name, valueUnder? after.attributes name =
        lastOf (valueUnder? node.attributes name) (statements.flatMap (Statement.assigned values name)) := by
  induction statements generalizing doc node with
  | nil => exact ⟨node, .refl found, fun _ => rfl⟩
  | cons statement statements ih =>
    have noToggles := fun other mem => noToggle other (mem_cons_of_mem statement mem)
    have noSpreads := fun target code mem => noSpread target code (mem_cons_of_mem statement mem)
    have same : ∀ {given : String → List (Option String)}, (∀ name, given name = []) →
        ∃ after, Edited doc (runStatements values n statements doc) n node after ∧ ∀ name, valueUnder? after.attributes name =
          lastOf (valueUnder? node.attributes name) (given name ++ statements.flatMap (Statement.assigned values name)) := by
      intro given nothing
      obtain ⟨after, edited, shown⟩ := ih noToggles noSpreads found fresh
      exact ⟨after, edited, fun name => by rw [nothing, nil_append, shown]⟩
    cases statement with
    | bind kind _ bound code =>
      cases kind with
      | plain =>
        have set := edited_bindAttribute_written found bound (values.text code)
        rw [fresh] at set
        obtain ⟨after, edited, shown⟩ := ih noToggles noSpreads set.result fresh
        refine ⟨after, set.trans edited, fun name => (shown name).trans ?_⟩
        have given : valueUnder? (withAttribute bound (values.text code) node.attributes) name =
            lastOf (valueUnder? node.attributes name) (if bound = name then [values.text code] else []) := by
          rw [valueUnder?_withAttribute]
          by_cases here : bound = name
          · rw [if_pos here.symm, if_pos here]
            rfl
          · rw [if_neg fun h => here h.symm, if_neg here]
            rfl
        rw [flatMap_cons, lastOf_append]
        exact congrArg (lastOf · _) given
      | property => exact same fun _ => rfl
      | _ => cases noToggle _ mem_cons_self
    | spread target code => exact absurd mem_cons_self (noSpread target code)
    | _ => exact same fun _ => rfl

theorem foldl_rewritten {read : String → β} {write : β → Option String} {step : β → α → β} {good : β → Prop}
    (back : ∀ list, good list → read ((write list).getD "") = list)
    (kept : ∀ list, good list → ∀ item ∈ items, good (step list item)) {list : β} (start : good list) :
    items.foldl (fun value item => write (step (read (value.getD "")) item)) (write list) =
      write (items.foldl step list) := by
  induction items generalizing list with
  | nil => rfl
  | cons item _ ih =>
    have later := ih (fun list fine other mem => kept list fine other (mem_cons_of_mem item mem))
      (kept list start item mem_cons_self)
    rwa [foldl_cons, foldl_cons, back list start]

theorem foldl_rewritten_from (read : String → β) (write : β → Option String) (step : β → α → β) (good : β → Prop)
    (back : ∀ list, good list → read ((write list).getD "") = list)
    (kept : ∀ list, good list → ∀ item ∈ items, good (step list item)) (start : good (read (initial.getD ""))) :
    items.foldl (fun value item => write (step (read (value.getD "")) item)) initial =
      if items.isEmpty then initial else write (items.foldl step (read (initial.getD ""))) := by
  cases items with
  | nil => rfl
  | cons item =>
    exact foldl_rewritten back (fun list fine other mem => kept list fine other (mem_cons_of_mem item mem))
      (kept _ start item mem_cons_self)

theorem foldl_toggles {toggles : List (String × Bool)} (words : ∀ toggle ∈ toggles, Text.IsWord toggle.1)
    (initial : Option String) :
    toggles.foldl (fun value toggle => classText (toggled (Text.wordsOf (value.getD "")) toggle.1 toggle.2)) initial =
      if toggles.isEmpty then initial else mergedClass initial toggles := by
  refine foldl_rewritten_from Text.wordsOf classText (fun names (toggle : String × Bool) => toggled names toggle.1 toggle.2)
    (fun names => ∀ name ∈ names, Text.IsWord name) ?_ ?_ fun name mem => Text.isWord_of_mem_wordsOf mem
  · exact fun names words => wordsOf_classText words
  · exact fun names fine toggle mem => isWord_of_mem_toggled fine (words toggle mem)

theorem removeFirst_eq {decls : Style.Declarations} (once : (decls.map Prod.fst).count name ≤ 1) :
    removeFirst name decls = decls.filter (·.1 != name) := by
  induction decls with
  | nil => rfl
  | cons _ decls ih =>
    rw [map_cons, count_cons] at once
    rw [removeFirst]
    split
    · rename_i here
      have none : name ∉ decls.map Prod.fst := by
        rw [if_pos (by simpa using here)] at once
        exact count_eq_zero.mp (by omega)
      rw [filter_cons_of_neg (by simp [here])]
      refine (filter_eq_self.mpr fun other mem => ?_).symm
      simp only [bne_iff_ne]
      exact fun same => none (mem_map.mpr ⟨other, mem, same⟩)
    · rename_i apart
      rw [filter_cons_of_pos (by simpa using apart), ih (by omega)]

theorem mergedStyle_eq {base : Option String} (once : ((Style.parse (base.getD "")).map Prod.fst).Nodup)
    (properties : List (String × Option String)) : mergedStyle base properties =
      styleText (properties.foldl (fun decls property => declared decls property.1 property.2)
        (Style.parse (base.getD ""))) := by
  unfold mergedStyle
  congr 1
  generalize Style.parse (base.getD "") = decls at once
  induction properties generalizing decls with
  | nil => rfl
  | cons property properties ih =>
    rw [foldl_cons, foldl_cons]
    refine (congrArg (foldl _ · properties) ?_).trans (ih _ (nodup_declared once _ _))
    obtain ⟨name, value⟩ := property
    cases value with
    | none => exact removeFirst_eq (nodup_iff_count_le_one.mp once name)
    | some => rfl

theorem foldl_properties {properties : List (String × Option String)}
    (tidy : ∀ property ∈ properties, Style.TidyName property.1 ∧ ∀ text ∈ property.2, Style.TidyValue text)
    (once : ((Style.parse (initial.getD "")).map Prod.fst).Nodup) :
    properties.foldl (fun value property => styleText (declared (Style.parse (value.getD "")) property.1 property.2)) initial =
      if properties.isEmpty then initial else mergedStyle initial properties := by
  rw [mergedStyle_eq once]
  refine foldl_rewritten_from Style.parse styleText
    (fun decls (property : String × Option String) => declared decls property.1 property.2) Style.Tidy
    (fun decls fine => parse_styleText fine) ?_ (Style.tidy_parse _)
  exact fun decls fine property mem => tidy_declared fine (tidy property mem).1 (tidy property mem).2

def Statement.toggle? (values : Values) : Statement → Option (String × Bool)
  | .bind .toggle _ name code => some (name, (values.text code).isSome)
  | _ => none

def Statement.declaration? (values : Values) : Statement → Option (String × Option String)
  | .bind .style _ name code => some (name, values.text code)
  | .bind .customProperty _ name code => some (styleName .customProperty name, values.text code)
  | _ => none

theorem turns_filterMap {values : Values} {item? : Statement → Option α} {effect : Option String → α → Option String}
    (each : ∀ statement ∈ statements, Turns n name (fun value => (item? statement).toList.foldl effect value)
      fun (doc : Document η Property) => statement.apply values n doc) :
    Turns n name (fun value => (statements.filterMap item?).foldl effect value)
      fun (doc : Document η Property) => runStatements values n statements doc := by
  intro doc node found
  obtain ⟨after, edited, shown⟩ := turns_foldl each found
  refine ⟨after, edited, shown.trans ?_⟩
  rw [filterMap_eq_flatMap_toList]
  exact foldl_flatMap.symm

theorem assigns_bindAttribute_other {bound : String} (notClass : bound ≠ "class") (notStyle : bound ≠ "style")
    (apart : bound ≠ name) (value : Option String) :
    Assigns n name [] fun (doc : Document η Property) => bindAttribute doc n bound value := by
  intro doc node found
  refine ⟨_, edited_bindAttribute_written found bound value, ?_⟩
  have written : bindAttributeIn bound value (togglesIn node.properties) node.attributes =
      withAttribute bound value node.attributes := by
    unfold bindAttributeIn
    split
    · rfl
    · rw [if_neg notClass, if_neg notStyle]
  dsimp only
  rw [written, valueUnder?_withAttribute, if_neg fun h => apart h.symm]
  rfl

theorem others_of_not_isBase {target code : String} (notBase : (Statement.bind .plain target name code).isBase = false) :
    name ≠ "class" ∧ name ≠ "style" := by
  simpa [Statement.isBase] using notBase

theorem turns_bindClass {toggle : String} (word : Text.IsWord toggle) (present : Bool) :
    Turns n "class" (fun value => classText (toggled (Text.wordsOf (value.getD "")) toggle present))
      fun (doc : Document η Property) => bindClass doc n toggle present := by
  intro doc node found
  refine ⟨_, edited_bindClass found word present, ?_⟩
  rw [valueUnder?_withAttribute, if_pos rfl, classesIn_eq]

theorem turns_bindStyle {property : String} (tidyName : Style.TidyName property) {value : Option String}
    (tidyValue : ∀ text ∈ value, Style.TidyValue text) :
    Turns n "style" (fun old => styleText (declared (Style.parse (old.getD "")) property value))
      fun (doc : Document η Property) => bindStyle doc n property value := by
  intro doc node found
  refine ⟨_, edited_bindStyle found tidyName tidyValue, ?_⟩
  rw [valueUnder?_withAttribute, if_pos rfl]

theorem turns_class (values : Values) (noBase : ∀ statement ∈ statements, statement.isBase = false)
    (noSpread : ∀ target code, .spread target code ∉ statements)
    (words : ∀ toggle ∈ statements.filterMap (Statement.toggle? values), Text.IsWord toggle.1) :
    Turns n "class" (fun value => (statements.filterMap (Statement.toggle? values)).foldl
        (fun value toggle => classText (toggled (Text.wordsOf (value.getD "")) toggle.1 toggle.2)) value)
      fun (doc : Document η Property) => runStatements values n statements doc := by
  refine turns_filterMap fun statement mem => ?_
  cases statement with
  | bind kind _ name code =>
    cases kind with
    | plain =>
      obtain ⟨notClass, notStyle⟩ := others_of_not_isBase (noBase _ mem)
      exact assigns_bindAttribute_other notClass notStyle notClass _
    | toggle => exact turns_bindClass (words _ (mem_filterMap.mpr ⟨_, mem, rfl⟩)) (values.text code).isSome
    | style => exact assigns_bindStyle (by decide) name _
    | customProperty => exact assigns_bindStyle (by decide) _ _
    | property => exact assigns_same n "class"
  | spread target code => exact absurd mem (noSpread target code)
  | _ => exact assigns_same n "class"

theorem turns_style (values : Values) (noBase : ∀ statement ∈ statements, statement.isBase = false)
    (noSpread : ∀ target code, .spread target code ∉ statements)
    (tidy : ∀ property ∈ statements.filterMap (Statement.declaration? values),
      Style.TidyName property.1 ∧ ∀ text ∈ property.2, Style.TidyValue text) :
    Turns n "style" (fun value => (statements.filterMap (Statement.declaration? values)).foldl
        (fun value property => styleText (declared (Style.parse (value.getD "")) property.1 property.2)) value)
      fun (doc : Document η Property) => runStatements values n statements doc := by
  refine turns_filterMap fun statement mem => ?_
  have styled : ∀ {name : String} {value : Option String}, statement.declaration? values = some (name, value) →
      Turns n "style" (fun old => styleText (declared (Style.parse (old.getD "")) name value))
        fun (doc : Document η Property) => bindStyle doc n name value := by
    intro name value same
    obtain ⟨tidyName, tidyValue⟩ := tidy _ (mem_filterMap.mpr ⟨_, mem, same⟩)
    exact turns_bindStyle tidyName tidyValue
  cases statement with
  | bind kind _ name =>
    cases kind with
    | plain =>
      obtain ⟨notClass, notStyle⟩ := others_of_not_isBase (noBase _ mem)
      exact assigns_bindAttribute_other notClass notStyle notStyle _
    | toggle => exact assigns_bindClass (by decide) name _
    | style => exact styled rfl
    | customProperty => exact styled rfl
    | property => exact assigns_same n "style"
  | spread target code => exact absurd mem (noSpread target code)
  | _ => exact assigns_same n "style"

end Lists

end LiveMarkup.Codegen
