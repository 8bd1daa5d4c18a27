import LiveMarkup.Proofs.WovenPrograms

/-!
The server's code for a template: the passages of the template are the arguments of the calls between its markup.
-/

namespace LiveMarkup
open List

def Blueprint.reworded (wording : String → String) (blueprint : Blueprint) : Blueprint :=
  { blueprint with roots := Blueprint.rewordedAll wording blueprint.roots }

namespace Codegen
open Blueprint Expression.Lexer

section Calls

variable {texts : List (Wording → String)} {passages : List (List Passage)}

def markupFunctions : List String :=
  ["ssr", "ssr_attr", "ssr_spread", "ssr_value", "ssr_child", "classes", "truthy", "styles", "attribute_value"]

theorem yields_call {function : String} (known : function ∈ markupFunctions) (each : Forall₂ Woven texts passages) :
    Yields (fun wording => call function (texts.map (· wording))) (Woven · passages.flatten) := by
  have all : markupFunctions.all (fun name => isOwn ("__" ++ name ++ "(")) = true := by decide
  unfold call
  refine (yields_runtime function).bind ?_
  rintro _ rfl
  exact yields_pure ((woven_intercalate each).enclosed ("__" ++ function ++ "(") ")" (all_eq_true.mp all _ known)
    (by decide) (by decide)).woven

theorem yields_call_passage {function : String} (known : function ∈ markupFunctions) (code : String) :
    Yields (fun wording => call function [wording code]) (Woven · [⟨code, false, false⟩]) := by
  have each : Forall₂ Woven [fun wording => wording code] [[⟨code, false, false⟩]] := .cons (woven_passage code) .nil
  simpa using yields_call known each

end Calls

def ComputedAttribute.reworded (wording : Wording) : ComputedAttribute → ComputedAttribute
  | .whole name code => .whole name (wording code)
  | .spread code => .spread (wording code)

def ComputedAttributes.reworded (wording : Wording) (computed : ComputedAttributes) : ComputedAttributes where
  attributes := computed.attributes.map (ComputedAttribute.reworded wording)
  classes := computed.classes.map fun entry => (entry.1, wording entry.2)
  styles := computed.styles.map fun entry => (entry.1, wording entry.2)

theorem filterMap_reworded {β : Type} {f : Attribute → Option β} {change : β → β} {wording : Wording}
    (each : ∀ entry, f (entry.reworded wording) = (f entry).map change) (attrs : List Attribute) :
    (attrs.map (Attribute.reworded wording)).filterMap f = (attrs.filterMap f).map change := by
  rw [filterMap_map, map_filterMap]
  exact congrArg (filterMap · attrs) (funext each)

theorem code_reworded (given : Value) (wording : Wording) : (given.reworded wording).code = wording given.code := rfl

theorem computed_reworded (attrs : List Attribute) (wording : Wording) :
    ComputedAttributes.ofAttributes (attrs.map (Attribute.reworded wording)) =
      (ComputedAttributes.ofAttributes attrs).reworded wording := by
  unfold ComputedAttributes.ofAttributes ComputedAttributes.reworded
  congr 1 <;> refine filterMap_reworded (fun entry => ?_) attrs
  all_goals
    cases entry with
    | value kind _ given =>
      by_cases dynamic : given.dynamic = true <;> cases kind <;>
        simp [Attribute.reworded, dynamic_reworded_value, code_reworded, dynamic, ComputedAttribute.reworded]
    | _ => rfl

def lastWhole (name : String) (computed : List ComputedAttribute) : Option String :=
  computed.foldl (fun last entry =>
    match entry with
    | .whole n code => if n = name then some code else last
    | .spread _ => last) none

theorem woven_baseCode (name : String) (known : List (String × String)) (computed : List ComputedAttribute) :
    Woven (fun wording => baseCode name known (computed.map (ComputedAttribute.reworded wording)))
      ((lastWhole name computed).toList.map (⟨·, false, false⟩)) := by
  have fold (base : Wording → String) (last : Option String) (woven : Woven base (last.toList.map (⟨·, false, false⟩))) :
      Woven (fun wording => (computed.map (ComputedAttribute.reworded wording)).foldl (fun base entry =>
          match entry with
          | .whole n code => if n = name then code else base
          | .spread _ => base) (base wording))
        ((computed.foldl (fun last entry =>
          match entry with
          | .whole n code => if n = name then some code else last
          | .spread _ => last) last).toList.map (⟨·, false, false⟩)) := by
    induction computed generalizing base last with
    | nil => exact woven
    | cons entry _ ih =>
      cases entry with
      | spread => exact ih base last woven
      | whole n code =>
        simp only [map_cons, foldl_cons, ComputedAttribute.reworded]
        by_cases same : n = name
        · simp only [same, if_true]
          exact ih (fun wording => wording code) (some code) (woven_passage code)
        · simp only [same, if_false]
          exact ih base last woven
  refine fold _ none ?_
  cases known.reverse.find? (·.1 == name) with
  | none => exact woven_literal ""
  | some entry => exact woven_literal entry.2

def NamedWoven (entries : List (String × (Wording → String))) (passages : List (List Passage)) : Prop :=
  Forall₂ Woven (entries.map Prod.snd) passages

theorem woven_pairs {entries : List (String × (Wording → String))} {passages : List (List Passage)}
    (each : NamedWoven entries passages) :
    Woven (fun wording => pairs (entries.map fun entry => (entry.1, entry.2 wording))) passages.flatten := by
  have inner : Forall₂ Woven (entries.map fun entry wording => "(" ++ stringLiteral entry.1 ++ ", " ++ entry.2 wording ++ ")")
      passages := by
    rw [NamedWoven, forall₂_map_left_iff] at each
    rw [forall₂_map_left_iff]
    refine each.imp fun entry p woven => ?_
    have whole := ((woven_literal entry.1).comma woven).enclosed "(" ")" (by decide) (by decide) (by decide)
    simpa [String.append_assoc] using whole.woven
  have whole := (woven_intercalate inner).enclosed "&[" "]" (by decide) (by decide) (by decide)
  simpa [pairs, Function.comp_def] using whole.woven

def CodesWoven (codes : Wording → List String) (passages : List Passage) : Prop :=
  ∃ (texts : List (Wording → String)) (each : List (List Passage)),
    (∀ wording, codes wording = texts.map (· wording)) ∧ Forall₂ Woven texts each ∧ each.flatten = passages

theorem CodesWoven.append {one two : Wording → List String} {p q : List Passage} (first : CodesWoven one p)
    (second : CodesWoven two q) : CodesWoven (fun wording => one wording ++ two wording) (p ++ q) := by
  obtain ⟨texts, ps, same, each, rfl⟩ := first
  obtain ⟨others, qs, again, more, rfl⟩ := second
  exact ⟨texts ++ others, ps ++ qs, fun wording => by simp [same, again], rel_append each more, by simp⟩

theorem codesWoven_nil : CodesWoven (fun _ => []) [] := ⟨[], [], fun _ => rfl, .nil, rfl⟩

theorem Woven.codes {code : Wording → String} {p : List Passage} (woven : Woven code p) :
    CodesWoven (fun wording => [code wording]) p :=
  ⟨[code], [p], fun _ => rfl, .cons woven .nil, by simp⟩

/-- The passage of a computed attribute, unless toggles replace it. -/
def wholePassage (replaced : String → Bool) : ComputedAttribute → Option Passage
  | .whole name code => if replaced name then none else some ⟨code, false, false⟩
  | .spread code => some ⟨code, false, false⟩

theorem yields_wholes (replaced : String → Bool) (computed : List ComputedAttribute) :
    Yields (fun wording => (computed.map (ComputedAttribute.reworded wording)).filterMapM (wholeCall replaced))
      (CodesWoven · (computed.filterMap (wholePassage replaced))) := by
  induction computed with
  | nil => exact yields_pure codesWoven_nil
  | cons entry _ ih =>
    have first : Yields (fun wording => wholeCall replaced (entry.reworded wording)) fun value =>
        ((∀ wording, value wording = none) ∧ wholePassage replaced entry = none) ∨
          ∃ code passage, (∀ wording, value wording = some (code wording)) ∧ Woven code [passage] ∧
            wholePassage replaced entry = some passage := by
      cases entry with
      | spread code =>
        refine (yields_call_passage (by decide) code).bind fun text woven => yields_pure (.inr ⟨text, _, fun _ => rfl, woven, rfl⟩)
      | whole name code =>
        simp only [wholeCall, ComputedAttribute.reworded, wholePassage]
        by_cases skip : replaced name = true
        · simp only [skip, if_true]
          exact yields_pure (.inl ⟨fun _ => rfl, trivial⟩)
        · simp only [skip]
          have arguments : Forall₂ Woven [fun _ => stringLiteral name, fun wording => wording code] [[], [⟨code, false, false⟩]] :=
            .cons (woven_literal name) (.cons (woven_passage code) .nil)
          have known : "ssr_attr" ∈ markupFunctions := by decide
          refine (yields_call known arguments).bind fun text woven => ?_
          exact yields_pure (.inr ⟨text, _, fun _ => rfl, by simpa using woven, rfl⟩)
    simp only [map_cons, filterMapM_cons]
    refine first.bind ?_
    rintro _ (⟨none, skip⟩ | ⟨_, _, some, woven, taken⟩)
    · simp only [none, filterMap_cons, skip]
      exact ih
    · simp only [some, filterMap_cons, taken]
      exact ih.bind fun codes others => yields_pure (woven.codes.append others)

theorem yields_toggles {name function convert : String} (known : List (String × String)) (computed : List ComputedAttribute)
    (toggles : List (String × String)) (one : function ∈ markupFunctions) (two : convert ∈ markupFunctions) :
    Yields (fun wording => toggleCall name function convert known (computed.map (ComputedAttribute.reworded wording))
        (toggles.map fun entry => (entry.1, wording entry.2)))
      (CodesWoven · (if toggles.isEmpty then [] else
        (lastWhole name computed).toList.map (⟨·, false, false⟩) ++ toggles.map (⟨·.2, false, false⟩))) := by
  have converted : Yields (fun wording => (toggles.map fun entry => (entry.1, wording entry.2)).mapM fun entry => do
        return (entry.1, ← call convert [entry.2])) fun value => ∃ entries passages,
      (value = fun wording => entries.map fun entry => (entry.1, entry.2 wording)) ∧ NamedWoven entries passages ∧
        passages.flatten = toggles.map (⟨·.2, false, false⟩) := by
    induction toggles with
    | nil => exact yields_pure ⟨[], [], rfl, .nil, rfl⟩
    | cons toggle _ ih =>
      simp only [map_cons, mapM_cons, bind_assoc, pure_bind]
      refine (yields_call_passage two toggle.2).bind fun code woven => ih.bind ?_
      rintro _ ⟨entries, passages, rfl, each, all⟩
      exact yields_pure ⟨(toggle.1, code) :: entries, _ :: passages, rfl, .cons woven each, by simp [all]⟩
  unfold toggleCall
  cases toggles with
  | nil => exact yields_pure codesWoven_nil
  | cons =>
    refine converted.bind ?_
    rintro _ ⟨entries, passages, rfl, each, all⟩
    have arguments : Forall₂ Woven [fun wording => baseCode name known (computed.map (ComputedAttribute.reworded wording)),
        fun wording => pairs (entries.map fun entry => (entry.1, entry.2 wording))] [_, passages.flatten] :=
      .cons (woven_baseCode name known computed) (.cons (woven_pairs each) .nil)
    refine (yields_call one arguments).bind fun code woven => yields_pure ?_
    simpa [all] using woven.codes

def tagPassages (attributes : List Attribute) : List Passage :=
  let computed := ComputedAttributes.ofAttributes attributes
  let toggles (name : String) (entries : List (String × String)) : List Passage :=
    if entries.isEmpty then []
    else (lastWhole name computed.attributes).toList.map (⟨·, false, false⟩) ++ entries.map (⟨·.2, false, false⟩)
  computed.attributes.filterMap (wholePassage computed.replaces) ++ toggles "class" computed.classes ++
    toggles "style" computed.styles

section Chunks

inductive ChunkWoven : (Wording → Chunk) → List Passage → Prop
  | markup (text : String) : ChunkWoven (fun _ => .markup text) []
  | part {code : Wording → String} {passages : List Passage} (woven : Woven code passages) :
      ChunkWoven (fun wording => .part (code wording)) passages

def ChunksWoven (chunks : Wording → List Chunk) (passages : List Passage) : Prop :=
  ∃ (pieces : List (Wording → Chunk)) (each : List (List Passage)),
    (∀ wording, chunks wording = pieces.map (· wording)) ∧ Forall₂ ChunkWoven pieces each ∧ each.flatten = passages

variable {one two : Wording → List Chunk} {p q : List Passage}

theorem ChunksWoven.append (first : ChunksWoven one p) (second : ChunksWoven two q) :
    ChunksWoven (fun wording => one wording ++ two wording) (p ++ q) := by
  obtain ⟨pieces, ps, same, each, rfl⟩ := first
  obtain ⟨others, qs, again, more, rfl⟩ := second
  exact ⟨pieces ++ others, ps ++ qs, fun wording => by simp [same, again], rel_append each more, by simp⟩

theorem chunksWoven_nil : ChunksWoven (fun _ => []) [] := ⟨[], [], fun _ => rfl, .nil, rfl⟩

theorem chunksWoven_markup (text : String) : ChunksWoven (fun _ => [.markup text]) [] :=
  ⟨[fun _ => .markup text], [[]], fun _ => rfl, .cons (.markup text) .nil, rfl⟩

theorem CodesWoven.chunks {codes : Wording → List String} (woven : CodesWoven codes p) :
    ChunksWoven (fun wording => (codes wording).map .part) p := by
  obtain ⟨texts, ps, same, each, rfl⟩ := woven
  refine ⟨texts.map fun code wording => .part (code wording), ps, fun wording => by simp [same], ?_, rfl⟩
  rw [forall₂_map_left_iff]
  exact each.imp fun _ _ => .part

theorem yields_serverOpenTag (element : Element) (attrs : List Attribute) :
    Yields (fun wording => serverOpenTag element (attrs.map (Attribute.reworded wording)))
      (ChunksWoven · (tagPassages attrs)) := by
  simp only [serverOpenTag, ofAttributes_reworded, computed_reworded]
  have kept (wording : Wording) : ((ComputedAttributes.ofAttributes attrs).reworded wording).replaces =
      (ComputedAttributes.ofAttributes attrs).replaces := by
    funext name
    simp [ComputedAttributes.replaces, ComputedAttributes.reworded]
  simp only [kept]
  refine (yields_wholes _ _).bind fun wholes one => ?_
  refine (yields_toggles _ _ _ (by decide) (by decide)).bind fun classes two => ?_
  refine (yields_toggles _ _ _ (by decide) (by decide)).bind fun styles three => yields_pure ?_
  have whole := ((chunksWoven_markup ("<" ++ element.tag ++ String.join (((StaticAttributes.ofAttributes attrs).merged.filter
    fun entry => !(ComputedAttributes.ofAttributes attrs).replaces entry.1).map renderAttribute))).append
      ((one.append two).append three).chunks).append (chunksWoven_markup ">")
  simpa [tagPassages] using whole

theorem yields_serverRegion (place : Place) {code : Wording → String} (woven : Woven code p) :
    Yields (fun wording => serverRegion place (code wording)) (ChunksWoven · p) := by
  have argument : Forall₂ Woven [code] [p] := .cons woven .nil
  have part {function : String} (known : function ∈ markupFunctions) :
      Yields (fun wording => call function [code wording]) fun value => ChunksWoven (fun wording => [.part (value wording)]) p :=
    (yields_call known argument).mono fun value woven => by simpa using (Woven.codes woven).chunks
  cases place with
  | root | soleChild => exact (part (by decide)).bind fun value woven => yields_pure woven
  | child =>
    exact (part (by decide)).bind fun value woven => yields_pure (by simpa using (chunksWoven_markup "<!--$-->").append woven)

theorem ChunksWoven.split {chunks : Wording → List Chunk} (woven : ChunksWoven chunks p) :
    (∀ wording, fragments (chunks wording) = fragments (chunks id)) ∧ CodesWoven (fun wording => parts (chunks wording)) p := by
  obtain ⟨_, _, same, each, rfl⟩ := woven
  simp only [same]
  constructor
  · intro wording
    unfold fragments
    generalize "" = current
    clear same
    induction each generalizing current with
    | nil => rfl
    | cons first _ ih =>
      cases first with
      | markup text => exact ih (current ++ text)
      | part => exact congrArg (current :: ·) (ih "")
  · clear same
    induction each with
    | nil => exact codesWoven_nil
    | cons first _ ih =>
      cases first with
      | markup => exact ih
      | part woven => exact woven.codes.append ih

theorem yields_serverCode {chunks : Wording → List Chunk} (woven : ChunksWoven chunks p) :
    Yields (fun wording => serverCode (chunks wording)) (Woven · p) := by
  obtain ⟨steady, texts, ps, same, each, rfl⟩ := woven.split
  unfold serverCode
  simp only [steady, same]
  have hoisted : OwnName "__SSR".toList := ownName_of_all (by decide)
  refine (yields_hoist hoisted _).bind ?_
  rintro _ ⟨name, own, rfl⟩
  have list := ((woven_intercalate each).enclosed "vec![" "]" (by decide) (by decide) (by decide)).woven
  have arguments : Forall₂ Woven [fun _ => name, fun wording => "vec![" ++ ", ".intercalate (texts.map (· wording)) ++ "]"]
      [[], ps.flatten] := .cons (woven_name own) (.cons list .nil)
  simpa using yields_call (by decide) arguments

end Chunks

mutual

def serverSlotPassages : Slot → List Passage
  | .none => []
  | .text _ => []
  | .expression given => [⟨given.code, false, false⟩]
  | .nested _ roots => serverNodesPassages roots

def serverNodesPassages : List Node → List Passage
  | [] => []
  | node :: rest => serverNodePassages node ++ serverNodesPassages rest

def serverNodePassages : Node → List Passage
  | .text _ => []
  | .expression given _ => if given.dynamic then [⟨given.code, false, false⟩] else []
  | .component component attributes slot =>
    ⟨component.path, false, false⟩ :: attributes.flatMap propertyPassages ++ serverSlotPassages slot
  | .element _ attributes children => tagPassages attributes ++ serverNodesPassages children

end

mutual

theorem yields_serverSlot (slot : Slot) : Yields (fun wording => serverSlot (slot.reworded wording)) fun value =>
    ∃ children, (value = fun wording => children.map (· wording)) ∧ GivenWoven children (serverSlotPassages slot) := by
  match slot with
  | .none => exact yields_pure ⟨none, rfl, rfl⟩
  | .text data => exact yields_pure ⟨some fun _ => stringLiteral data, rfl, woven_literal data⟩
  | .expression given => exact yields_pure ⟨some fun wording => wording given.code, rfl, woven_passage given.code⟩
  | .nested _ roots =>
    simp only [Slot.reworded, serverSlot]
    exact (yields_serverNodes .root roots).bind fun chunks woven =>
      (yields_serverCode woven).bind fun code woven => yields_pure ⟨some code, rfl, woven⟩

theorem yields_serverNodes (place : Place) (nodes : List Node) :
    Yields (fun wording => serverNodes place (rewordedAll wording nodes)) (ChunksWoven · (serverNodesPassages nodes)) := by
  match nodes with
  | [] => exact yields_pure chunksWoven_nil
  | node :: rest =>
    simp only [rewordedAll, serverNodes]
    exact (yields_serverNode place node).bind fun first woven =>
      (yields_serverNodes place rest).bind fun others more => yields_pure (woven.append more)

theorem yields_serverNode (place : Place) (node : Node) :
    Yields (fun wording => serverNode place (node.reworded wording)) (ChunksWoven · (serverNodePassages node)) := by
  match node with
  | .text _ => exact yields_pure (chunksWoven_markup _)
  | .expression given _ =>
    simp only [Node.reworded, serverNode, dynamic_reworded_value, serverNodePassages]
    by_cases dynamic : given.dynamic = true
    · simp only [dynamic, if_true]
      exact yields_serverRegion place (woven_passage given.code)
    · simp only [dynamic, Bool.false_eq_true, if_false]
      exact yields_pure (chunksWoven_markup (Markup.Entity.escapeAll given.shown))
  | .component component attrs slot =>
    simp only [Node.reworded, serverNode]
    refine (yields_serverSlot slot).bind ?_
    rintro _ ⟨_, rfl, given⟩
    exact (yields_componentCall component.path attrs given).bind fun code woven => yields_serverRegion place woven
  | .element element attrs children =>
    simp only [Node.reworded, serverNode]
    refine (yields_serverOpenTag element attrs).bind fun start one => (yields_serverNodes _ children).bind fun inner two => ?_
    have closing : ChunksWoven (fun _ => if element.isVoid then [] else [.markup ("</" ++ element.tag ++ ">")]) [] := by
      cases element.isVoid with
      | true => exact chunksWoven_nil
      | false => exact chunksWoven_markup _
    exact yields_pure (by simpa [serverNodePassages] using (one.append two).append closing)

end

def passages (target : Target) (blueprint : Blueprint) : List Passage :=
  match target with
  | .client => viewPassages blueprint.fragment (rootsPassages blueprint.roots)
  | .server => serverNodesPassages blueprint.roots

theorem woven_generate (context : Context) (blueprint : Blueprint) :
    Woven (fun wording => (generate (blueprint.reworded wording) context).1) (passages context.target blueprint) := by
  have whole : Yields (fun wording => match context.target with
      | .client => client (blueprint.reworded wording)
      | .server => server (blueprint.reworded wording)) (Woven · (passages context.target blueprint)) := by
    unfold passages
    cases context.target with
    | client =>
      refine (yields_roots blueprint.roots).bind ?_
      rintro _ ⟨_, rfl, each⟩
      exact yields_view each blueprint.fragment
    | server => exact (yields_serverNodes .root blueprint.roots).bind fun chunks woven => yields_serverCode woven
  exact (whole context).2

end Codegen
end LiveMarkup
