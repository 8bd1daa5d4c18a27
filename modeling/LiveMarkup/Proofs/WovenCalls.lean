import LiveMarkup.Proofs.OpenTags
import LiveMarkup.Proofs.Weaving

/-!
Both generators write the passages of a template into their code as they are.
-/

namespace LiveMarkup.Blueprint

def Value.reworded (wording : String → String) (given : Value) : Value :=
  { given with code := wording given.code, bound := given.bound.map wording }

def Attribute.reworded (wording : String → String) : Attribute → Attribute
  | .value kind name given span => .value kind name (given.reworded wording) span
  | .spread code span => .spread (wording code) span
  | .reference code span => .reference (wording code) span
  | .event name handler capture span => .event name (handler.reworded wording) capture span
  | .directive name argument span => .directive (wording name) (argument.map wording) span

mutual

def Node.reworded (wording : String → String) : Node → Node
  | .text data => .text data
  | .expression given span => .expression (given.reworded wording) span
  | .element element attributes children =>
    .element element (attributes.map (Attribute.reworded wording)) (rewordedAll wording children)
  | .component component attributes slot =>
    .component { component with path := wording component.path } (attributes.map (Attribute.reworded wording)) (slot.reworded wording)

def Slot.reworded (wording : String → String) : Slot → Slot
  | .none => .none
  | .text data => .text data
  | .expression given => .expression (given.reworded wording)
  | .nested fragment roots => .nested fragment (rewordedAll wording roots)

def rewordedAll (wording : String → String) : List Node → List Node
  | [] => []
  | node :: rest => node.reworded wording :: rewordedAll wording rest

end
end LiveMarkup.Blueprint

namespace LiveMarkup.Codegen
open Blueprint Expression.Lexer List Statement Attribute

section Names

variable {base : String}

theorem isIdentifierPart_of_isDigit {c : Char} (digit : c.isDigit = true) : Text.isIdentifierPart c = true := by
  simp [Text.isIdentifierPart, digit]

theorem isIdentifierPart_of_tail {digits : List Char} (all : ∀ c ∈ digits, c.isDigit = true) :
    ∀ c ∈ '_' :: digits, Text.isIdentifierPart c = true := by
  intro c mem
  rcases mem_cons.mp mem with rfl | mem
  · decide
  · exact isIdentifierPart_of_isDigit (all c mem)

theorem ownName_of_named {name : String} (own : OwnName base.toList) (named : name = base ∨ Declarations.Numbered base name) :
    OwnName name.toList := by
  rcases named with rfl | ⟨digits, -, all, same⟩
  · exact own
  · exact same ▸ own.append (isIdentifierPart_of_tail all)

theorem ownName_nameFor (own : OwnName base.toList) (n : Nat) : OwnName (Declarations.nameFor base n).toList :=
  ownName_of_named own (Declarations.named_nameFor base n)

theorem ownName_hoist (own : OwnName base.toList) (init : String) (table : Declarations) :
    OwnName (table.hoist base init).1.toList :=
  ownName_of_named own (Declarations.named_hoist table base init)

end Names

section Yielding

variable {α β : Type} {post : (Wording → α) → Prop} {act : Wording → Gen α}

/-- What a generator gives when passages say something else, in every context. The context it leaves stays the same. -/
def Yields (act : Wording → Gen α) (post : (Wording → α) → Prop) : Prop :=
  ∀ context, (∀ wording, (act wording context).2 = (act id context).2) ∧ post fun wording => (act wording context).1

theorem yields_pure {value : Wording → α} (holds : post value) :
    Yields (fun wording => pure (value wording)) post := fun _ => ⟨fun _ => rfl, holds⟩

theorem Yields.bind {act : Wording → Gen α} {next : Wording → α → Gen β} {middle : (Wording → α) → Prop}
    {post : (Wording → β) → Prop} (first : Yields act middle)
    (second : ∀ value, middle value → Yields (fun wording => next wording (value wording)) post) :
    Yields (fun wording => act wording >>= next wording) post := by
  intro context
  obtain ⟨steady, holds⟩ := first context
  obtain ⟨again, result⟩ := second _ holds (act id context).2
  have run (wording : Wording) : (act wording >>= next wording) context = next wording (act wording context).1 (act id context).2 := by
    rw [← steady wording]
    rfl
  simp only [run]
  exact ⟨again, result⟩

theorem Yields.mono {wider : (Wording → α) → Prop} (yields : Yields act post) (implies : ∀ value, post value → wider value) :
    Yields act wider :=
  fun context => ⟨(yields context).1, implies _ (yields context).2⟩

theorem yields_runtime (name : String) : Yields (fun _ => Gen.runtime name) (· = fun _ => "__" ++ name) :=
  fun _ => ⟨fun _ => rfl, rfl⟩

theorem yields_hoist {base : String} (own : OwnName base.toList) (init : String) :
    Yields (fun _ => Gen.hoist base init) fun value => ∃ name : String, OwnName name.toList ∧ value = fun _ => name :=
  fun context => ⟨fun _ => rfl, _, ownName_hoist own init context.declarations, rfl⟩

theorem yields_any (yields : Yields act post) :
    Yields (fun wording => discard (act wording)) fun _ => True := fun context => ⟨(yields context).1, trivial⟩

end Yielding

def valuePassage (given : Value) : Passage :=
  if given.observable then
    match given.bound with
    | some path => ⟨path, false, false⟩
    | none => ⟨given.code, true, false⟩
  else ⟨given.code, false, false⟩

theorem woven_emit (given : Value) : Woven (fun wording => (given.reworded wording).emit) [valuePassage given] := by
  unfold Value.emit valuePassage
  cases observable : given.observable with
  | false => simpa [Value.reworded, observable] using woven_passage given.code
  | true =>
    cases bound : given.bound with
    | none => simpa [Value.reworded, observable, bound] using woven_closure given.code
    | some path => simpa [Value.reworded, observable, bound] using woven_passage path

def propertyPassages : Attribute → List Passage
  | .value _ _ given _ => [valuePassage given]
  | .spread code _ => [⟨code, false, false⟩]
  | _ => []

theorem leading_propertyEntry (name : String) (given : Value) :
    Leading (fun wording => propertyEntry name (given.reworded wording)) [valuePassage given] := by
  have inner (front : String) (lead : isOwn front = true) : Leading
      (fun wording => front ++ stringLiteral name ++ ", " ++ (given.reworded wording).emit ++ ")") [valuePassage given] := by
    have whole := ((woven_literal name).comma (woven_emit given)).enclosed front ")" lead (by decide) (by decide)
    simpa [String.append_assoc] using whole
  unfold propertyEntry
  cases observable : given.observable with
  | false => simpa [Value.reworded, Value.emit, observable] using inner ".set(" (by decide)
  | true => simpa [Value.reworded, observable] using inner ".getter(" (by decide)

section Components

variable {p : List Passage}

inductive SourceWoven : (Wording → PropertySource) → List Passage → Prop
  | group {entries : List (Wording → String)} {passages : List (List Passage)} (each : Forall₂ Leading entries passages) :
      SourceWoven (fun wording => .group (entries.map (· wording))) passages.flatten
  | spread {code : Wording → String} {passages : List Passage} (woven : Woven code passages) :
      SourceWoven (fun wording => .spread (code wording)) passages

variable {sources : List (Wording → PropertySource)} {passages : List (List Passage)}
  {children : Option (Wording → String)}

theorem addToGroup_cons (entry : String) (source next : PropertySource) (rest : List PropertySource) :
    addToGroup entry (source :: next :: rest) = source :: addToGroup entry (next :: rest) := by
  cases source <;> rfl

theorem addToGroup_woven (each : Forall₂ SourceWoven sources passages) {entry : Wording → String} {q : List Passage}
    (leading : Leading entry q) : ∃ more others, (∀ wording, addToGroup (entry wording) (sources.map (· wording)) = more.map (· wording)) ∧
      Forall₂ SourceWoven more others ∧ others.flatten = passages.flatten ++ q := by
  have fresh : SourceWoven (fun wording => .group [entry wording]) [q].flatten := .group (.cons leading .nil)
  induction each with
  | nil => exact ⟨[_], _, fun _ => rfl, .cons fresh .nil, by simp⟩
  | @cons source p _ _ first others ih =>
    cases others with
    | nil =>
      cases first with
      | @group _ _ each =>
        refine ⟨[_], _, fun _ => by simp [addToGroup], .cons (.group (rel_append each (.cons leading .nil))) .nil, by simp⟩
      | spread woven => exact ⟨[_, _], _, fun _ => rfl, .cons (.spread woven) (.cons fresh .nil), by simp⟩
    | cons =>
      obtain ⟨more, qs, same, each, all⟩ := ih
      refine ⟨source :: more, p :: qs, fun wording => ?_, .cons first each, by simp [all]⟩
      rw [map_cons, map_cons, addToGroup_cons, map_cons, ← same wording]
      rfl

theorem addSource_woven (each : Forall₂ SourceWoven sources passages) (entry : Attribute) :
    ∃ more others, (∀ wording, addSource (sources.map (· wording)) (entry.reworded wording) = more.map (· wording)) ∧
      Forall₂ SourceWoven more others ∧ others.flatten = passages.flatten ++ propertyPassages entry := by
  cases entry with
  | value _ name given => exact addToGroup_woven each (leading_propertyEntry name given)
  | spread code =>
    refine ⟨sources ++ [fun wording => .spread (wording code)], passages ++ [[⟨code, false, false⟩]], fun wording => ?_,
      rel_append each (.cons (.spread (woven_passage code)) .nil), by simp [propertyPassages]⟩
    rw [map_append]
    rfl
  | _ => exact ⟨sources, passages, fun _ => rfl, each, by simp [propertyPassages]⟩

theorem namedSources_woven (each : Forall₂ SourceWoven sources passages) (attrs : List Attribute) :
    ∃ more others, (∀ wording, (attrs.map (reworded wording)).foldl addSource (sources.map (· wording)) =
        more.map (· wording)) ∧
      Forall₂ SourceWoven more others ∧ others.flatten = passages.flatten ++ attrs.flatMap propertyPassages := by
  induction attrs generalizing sources passages with
  | nil => exact ⟨sources, passages, fun _ => rfl, each, by simp⟩
  | cons entry _ ih =>
    obtain ⟨_, _, same, each, all⟩ := addSource_woven each entry
    obtain ⟨more, others, again, each, whole⟩ := ih each
    refine ⟨more, others, fun wording => ?_, each, by simp [whole, all]⟩
    rw [map_cons, foldl_cons, same wording, again wording]

def GivenWoven : Option (Wording → String) → List Passage → Prop
  | none, passages => passages = []
  | some text, passages => Woven text passages

theorem propertySources_woven (attrs : List Attribute) {p : List Passage}
    (given : GivenWoven children p) : ∃ sources passages,
      (∀ wording, propertySources (attrs.map (reworded wording)) (children.map (· wording)) = sources.map (· wording)) ∧
      Forall₂ SourceWoven sources passages ∧ passages.flatten = attrs.flatMap propertyPassages ++ p := by
  obtain ⟨sources, passages, same, each, all⟩ := namedSources_woven .nil attrs
  cases children with
  | none =>
    obtain rfl : p = [] := given
    exact ⟨sources, passages, same, each, by simpa using all⟩
  | some =>
    have leading := Woven.enclosed ".children(move || " ")" (by decide) (by decide) (by decide) given
    obtain ⟨more, others, again, each, whole⟩ := addToGroup_woven each leading
    refine ⟨more, others, fun wording => ?_, each, by simpa [all] using whole⟩
    rw [← again wording, ← same wording]
    rfl

theorem woven_source {source : Wording → PropertySource} (woven : SourceWoven source p) :
    Woven (fun wording => (source wording).render "__Props") p := by
  cases woven with
  | group each => exact ((leading_own "__Props::new()" (by decide)).append (leading_join each)).woven
  | spread woven => exact woven

theorem woven_sources (each : Forall₂ SourceWoven sources passages) :
    Forall₂ Woven (sources.map fun source wording => (source wording).render "__Props") passages := by
  rw [forall₂_map_left_iff]
  exact each.imp fun _ _ => woven_source

theorem yields_mergedSources {texts : List (Wording → String)} (each : Forall₂ Woven texts passages) :
    Yields (fun wording => mergedSources "__Props" (texts.map (· wording))) (Woven · passages.flatten) := by
  cases each with
  | nil => exact yields_pure (leading_own "__Props::new()" (by decide)).woven
  | @cons _ _ texts passages first others =>
    cases others with
    | nil => exact yields_pure (by simpa using first)
    | @cons _ _ _ _ second others =>
      refine (yields_runtime "merge_props").bind ?_
      rintro _ rfl
      have inner := woven_intercalate (.cons first (.cons second others))
      exact yields_pure (inner.enclosed "__merge_props(vec![" "])" (by decide) (by decide) (by decide)).woven

theorem yields_componentCall (path : String) (attrs : List Attribute)
    {p : List Passage} (given : GivenWoven children p) :
    Yields (fun wording => componentCall (wording path) (attrs.map (reworded wording)) (children.map (· wording)))
      (Woven · (⟨path, false, false⟩ :: attrs.flatMap propertyPassages ++ p)) := by
  obtain ⟨sources, _, same, each, all⟩ := propertySources_woven attrs given
  have render (wording : Wording) : (propertySources (attrs.map (reworded wording)) (children.map (· wording))).map
      (PropertySource.render "__Props") = (sources.map fun source wording => (source wording).render "__Props").map (· wording) := by
    rw [same, map_map, map_map]
    rfl
  refine (yields_runtime "Props").bind ?_
  rintro _ rfl
  simp only [show "__" ++ "Props" = "__Props" from rfl, render]
  refine (yields_mergedSources (woven_sources each)).bind fun given woven => ?_
  refine (yields_runtime "create_component").bind ?_
  rintro _ rfl
  refine yields_pure ?_
  have whole := ((woven_passage path).comma woven).enclosed "__create_component(" ")" (by decide) (by decide) (by decide)
  simpa [all, String.append_assoc] using whole.woven

end Components

section Statements

variable {target : String} {statements : List (Wording → Statement)} {passages : List (List Passage)}

/-- The passages that are bound to an element by an attribute that is not part of the markup. -/
def bindingPassages : Attribute → List Passage
  | .value kind _ given _ =>
    if StaticAttributes.takes kind given then []
    else [if given.dynamic then valuePassage given else ⟨given.code, false, false⟩]
  | .spread code _ => [⟨code, false, false⟩]
  | .reference code _ => [⟨code, false, false⟩]
  | .event _ handler _ _ => [⟨handler.bound.getD handler.code, false, false⟩]
  | .directive name argument _ => ⟨name, false, false⟩ :: argument.toList.map (⟨·, false, false⟩)

def Statement.line (statement : Statement) : String := "    " ++ statement.render ++ "\n"

/-- A call with passages in its arguments. What else it says stays the same whatever the passages say. -/
structure StatementWoven (statement : Wording → Statement) (passages : List Passage) : Prop where
  function : ∀ wording, (statement wording).function = (statement id).function
  toggle : ∀ wording, (statement wording).isToggle = (statement id).isToggle
  base : ∀ wording, (statement wording).isBase = (statement id).isBase
  leading : Leading (fun wording => (statement wording).line) passages

def bindingFunctions : List String :=
  ["attr", "class", "style", "cssvar", "prop", "spread", "use_ref", "listen", "use_directive", "insert", "insert_at_marker"]

theorem function_mem (statement : Statement) : statement.function ∈ bindingFunctions := by
  cases statement with
  | bind kind => cases kind <;> simp [function, bindFunction, bindingFunctions]
  | _ => simp [function, bindingFunctions]

theorem isOwn_function (statement : Statement) : isOwn ("    __" ++ statement.function ++ "(") = true := by
  have all : bindingFunctions.all (fun name => isOwn ("    __" ++ name ++ "(")) = true := by decide
  exact all_eq_true.mp all _ (function_mem statement)

theorem leading_line {statement : Wording → Statement} {p : List Passage}
    (function : ∀ wording, (statement wording).function = (statement id).function)
    (arguments : Woven (fun wording => (statement wording).arguments) p) : Leading (fun wording => (statement wording).line) p := by
  have whole := arguments.enclosed ("    __" ++ (statement id).function ++ "(") ");\n" (isOwn_function _) (by decide) (by decide)
  have same : (fun wording => (statement wording).line) = fun wording =>
      "    __" ++ (statement id).function ++ "(" ++ (statement wording).arguments ++ ");\n" := by
    funext wording
    rw [line, render, function wording]
    simp only [← String.toList_inj, String.toList_append, append_assoc]
    rfl
  rwa [same]

theorem statementWoven_bind (own : OwnName target.toList) (kind : AttributeKind) (name : String) {code : Wording → String}
    {p : List Passage} (woven : Woven code p) : StatementWoven (fun wording => .bind kind target name (code wording)) p :=
  ⟨fun _ => rfl, fun _ => rfl, fun _ => by cases kind <;> rfl,
    leading_line (fun _ => rfl) (by simpa [arguments] using ((woven_reference own).comma (woven_literal name)).comma woven)⟩

theorem takes_reworded (kind : AttributeKind) (given : Value) (wording : Wording) :
    StaticAttributes.takes kind (given.reworded wording) = StaticAttributes.takes kind given := rfl

theorem woven_bound (given : Value) : Woven (fun wording => if given.dynamic then (given.reworded wording).emit else wording given.code)
    [if given.dynamic then valuePassage given else ⟨given.code, false, false⟩] := by
  cases given.dynamic with
  | false => exact woven_passage given.code
  | true => exact woven_emit given

theorem attributeStatement?_woven (own : OwnName target.toList) (entry : Attribute) :
    ((∀ wording, attributeStatement? target (entry.reworded wording) = none) ∧ bindingPassages entry = []) ∨
      ∃ statement, (∀ wording, attributeStatement? target (entry.reworded wording) = some (statement wording)) ∧
        StatementWoven statement (bindingPassages entry) := by
  have reference := woven_reference own
  cases entry with
  | value kind name given =>
    simp only [reworded, attributeStatement?, bindingPassages, takes_reworded]
    by_cases takes : StaticAttributes.takes kind given = true
    · simp only [takes, if_true]
      exact .inl ⟨fun _ => trivial, trivial⟩
    · simp only [takes]
      exact .inr ⟨_, fun _ => rfl, statementWoven_bind own kind name (woven_bound given)⟩
  | spread code =>
    exact .inr ⟨fun wording => .spread target (wording code), fun _ => rfl, fun _ => rfl, fun _ => rfl, fun _ => rfl,
      leading_line (fun _ => rfl) (reference.comma (woven_passage code))⟩
  | reference code =>
    exact .inr ⟨fun wording => .reference target (wording code), fun _ => rfl, fun _ => rfl, fun _ => rfl, fun _ => rfl,
      leading_line (fun _ => rfl) (reference.comma (woven_passage code))⟩
  | event name handler capture =>
    refine .inr ⟨fun wording => .listen target name (wording (handler.bound.getD handler.code)) capture, fun wording => ?_,
      fun _ => rfl, fun _ => rfl, fun _ => rfl, leading_line (fun _ => rfl) ?_⟩
    · simp only [reworded, attributeStatement?, Value.reworded]
      cases handler.bound <;> rfl
    · have flag : Woven (fun _ => if capture then "true" else "false") [] := by
        cases capture with
        | false => exact woven_word "false" (by decide) (by decide)
        | true => exact woven_word "true" (by decide) (by decide)
      simpa [arguments, bindingPassages] using
        ((reference.comma (woven_literal name)).comma (woven_passage (handler.bound.getD handler.code))).comma flag
  | directive name argument =>
    refine .inr ⟨fun wording => .directive target (wording name) ((argument.map wording).getD "()"), fun _ => rfl,
      fun _ => rfl, fun _ => rfl, fun _ => rfl, leading_line (fun _ => rfl) ?_⟩
    have given : Woven (fun wording => (argument.map wording).getD "()") (argument.toList.map (⟨·, false, false⟩)) := by
      cases argument with
      | none => exact woven_word "()" (by decide) (by decide)
      | some code => exact woven_passage code
    simpa [arguments, bindingPassages] using (reference.comma (woven_passage name)).comma given

theorem filterMap_woven (own : OwnName target.toList) (attrs : List Attribute) : ∃ statements passages,
      (∀ wording, (attrs.map (reworded wording)).filterMap (attributeStatement? target) = statements.map (· wording)) ∧
      Forall₂ StatementWoven statements passages ∧ passages.flatten = attrs.flatMap bindingPassages := by
  induction attrs with
  | nil => exact ⟨[], [], fun _ => rfl, .nil, rfl⟩
  | cons entry _ ih =>
    obtain ⟨statements, passages, same, each, all⟩ := ih
    obtain ⟨none, empty⟩ | ⟨statement, made, woven⟩ := attributeStatement?_woven own entry
    · exact ⟨statements, passages, fun wording => by simp [none, same], each, by simp [empty, all]⟩
    · exact ⟨statement :: statements, _ :: passages, fun wording => by simp [made, same], .cons woven each, by simp [all]⟩

theorem orderStatements_woven {early late : List (Wording → Statement)} {ps qs : List (List Passage)}
    (one : Forall₂ StatementWoven early ps) (two : Forall₂ StatementWoven late qs) (toggled : Bool)
    (each : Forall₂ StatementWoven statements passages) : ∃ ordered others,
      (∀ wording, orderStatements (early.map (· wording)) (late.map (· wording)) toggled (statements.map (· wording)) = ordered.map (· wording)) ∧
      Forall₂ StatementWoven ordered others ∧ others.flatten.Perm (ps.flatten ++ qs.flatten ++ passages.flatten) := by
  induction each generalizing early late ps qs toggled with
  | nil => exact ⟨early ++ late, ps ++ qs, fun wording => by simp [orderStatements], rel_append one two, by simp⟩
  | @cons statement p _ passages woven others ih =>
    by_cases behind : ((toggled || (statement id).isToggle) && !(statement id).isBase) = true
    · obtain ⟨ordered, others, same, each, all⟩ := ih one (rel_append two (.cons woven .nil)) (toggled || (statement id).isToggle)
      refine ⟨ordered, others, fun wording => ?_, each, all.trans (by simp)⟩
      rw [map_cons, orderStatements]
      simp only [woven.toggle wording, woven.base wording, behind, if_true, ← same wording, map_append, map_cons, map_nil]
    · obtain ⟨ordered, others, same, each, all⟩ := ih (rel_append one (.cons woven .nil)) two (toggled || (statement id).isToggle)
      refine ⟨ordered, others, fun wording => ?_, each, all.trans ?_⟩
      · rw [map_cons, orderStatements]
        simp only [woven.toggle wording, woven.base wording, behind, ← same wording, map_append, map_cons, map_nil]
        rfl
      · simpa using (perm_append_comm_assoc p qs.flatten passages.flatten).append_left ps.flatten

end Statements
end LiveMarkup.Codegen
