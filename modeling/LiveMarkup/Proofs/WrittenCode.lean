import LiveMarkup.Proofs.WovenMarkup

/-!
The code that is written in a template and the passages of its blueprint. Every expression of the template is a constant or
has its passage in the code of the client, and in that of the server as far as the server prints it.
-/

namespace LiveMarkup.Template

namespace Parser

variable {α β : Type} {cursor : Cursor} {attempts : Attempts}

theorem of_construct_eq_some {body : Parser α} {name : Construct} {result : α × Cursor}
    (ran : (construct name body cursor attempts).1 = some result) : (body cursor attempts).1 = some result := by
  unfold construct at ran
  dsimp only at ran
  split at ran
  · rename_i found
    rw [found]
    exact ran
  · cases ran

theorem of_bind_eq_some {first : Parser α} {next : α → Parser β} {result : β × Cursor}
    (ran : ((first >>= next) cursor attempts).1 = some result) :
    ∃ value middle later, first cursor attempts = (some (value, middle), later) ∧ (next value middle later).1 = some result := by
  rw [bind_apply] at ran
  rcases found : first cursor attempts with ⟨_ | ⟨value, middle⟩, later⟩
  · rw [found] at ran
    cases ran
  · rw [found] at ran
    exact ⟨value, middle, later, rfl, ran⟩

end Parser

theorem placedAll_parse {source : String} {roots : List Tree} (read : parse source = .ok roots) :
    Tree.PlacedAll source.toList roots := by
  unfold parse Parser.parse at read
  rcases ran : Grammar.template (.ofText source) {} with ⟨_ | ⟨written, cursor⟩, attempts⟩
  · rw [ran] at read
    cases read
  · rw [ran] at read
    have all : (Grammar.template (.ofText source) {}).1 = some (written, cursor) := congrArg Prod.fst ran
    obtain ⟨inner, middle, _, found, rest⟩ := Parser.of_bind_eq_some (Parser.of_construct_eq_some all)
    obtain ⟨_, _, _, -, same⟩ := Parser.of_bind_eq_some rest
    obtain rfl := (Prod.mk.inj (Option.some.inj same)).1
    have content : Parser.Reads source.toList 0 Grammar.content fun roots _ => Written.PlacedAll source.toList roots :=
      Parser.reads_rest.bind fun _ _ _ => reads_nodes _
    have gives := (content {} ⟨0, rfl, List.forall_mem_nil _⟩).2
    rw [show cursorAt source.toList 0 = Cursor.ofText source from rfl, found] at gives
    obtain ⟨_, _, placed⟩ := gives inner middle rfl
    have trimmed : (toTrees inner >>= fun trees => pure (trimRoots trees)) = .ok roots := read
    have settled : Settles source.toList (Tree.PlacedAll source.toList) (toTrees inner >>= fun trees => pure (trimRoots trees)) :=
      (settles_toTrees placed).bind fun trees below => .ok (placedAll_trimRoots below)
    rw [trimmed] at settled
    exact settled.sound

end LiveMarkup.Template

namespace LiveMarkup.Blueprint
open Template (bind_eq_ok)

/-- Whether the server prints an attribute of an element by itself: not what is bound to a live node, nor what toggles
may replace. -/
def Attribute.printed : Attribute → Bool
  | .value .plain name _ _ => name != "class" && name != "style"
  | .value .property _ _ _ => false
  | .value _ _ _ _ => true
  | .spread _ _ => true
  | _ => false

inductive Attribute.Embeds (code : String) : Attribute → Prop
  | value {kind name given span} (looked : analyze? code = some given) : Embeds code (.value kind name given span)
  | spread {span} : Embeds code (.spread code span)
  | reference {span} : Embeds code (.reference code span)
  | event {name handler capture span} (looked : analyzeHandler? code = some handler) :
      Embeds code (.event name handler capture span)
  | directive {name span} : Embeds code (.directive name (some code) span)

theorem analyzeHandler_eq_ok {code : String} {span : Template.Span} {value : Value}
    (made : analyzeHandler code span = .ok value) : analyzeHandler? code = some value := by
  unfold analyzeHandler at made
  cases looked : analyzeHandler? code with
  | none => simp [looked] at made
  | some => simpa [looked] using made

variable {given : Template.Attribute} {entry : Attribute} {code : String}

theorem embeds_elementAttribute (built : elementAttribute given = .ok entry) (embedded : given.code? = some code) :
    entry.Embeds code := by
  cases classifiedAs_of_elementAttribute built with
  | spread =>
    obtain rfl := Option.some.inj embedded
    exact .spread
  | reference =>
    obtain rfl := Option.some.inj embedded
    exact .reference
  | @value _ _ value _ _ _ _ _ _ looked =>
    rcases value with _ | text | other
    · cases embedded
    · cases embedded
    · obtain rfl := Option.some.inj embedded
      exact .value (analyze_eq_ok looked)
  | event _ _ looked =>
    obtain rfl := Option.some.inj embedded
    exact .event (analyzeHandler_eq_ok looked)
  | @directive _ value =>
    rcases value with _ | text | other
    · cases embedded
    · cases embedded
    · obtain rfl := Option.some.inj embedded
      exact .directive

theorem embeds_componentAttribute (built : componentAttribute given = .ok entry) (embedded : given.code? = some code) :
    (∃ name value span, entry = .value .plain name value span ∧ analyze? code = some value) ∨ ∃ span, entry = .spread code span := by
  cases given with
  | spread _ span =>
    obtain rfl := Except.ok.inj built
    obtain rfl := Option.some.inj embedded
    exact .inr ⟨span, rfl⟩
  | named name value span =>
    obtain rfl : value = some (.expression code) := by
      rcases value with _ | _ | other
      · cases embedded
      · cases embedded
      · exact congrArg (some ∘ Template.AttributeValue.expression) (Option.some.inj embedded)
    obtain ⟨made, looked, rest⟩ := bind_eq_ok built
    obtain rfl := Except.ok.inj rest
    exact .inl ⟨name, made, span, rfl, analyze_eq_ok looked⟩

end LiveMarkup.Blueprint

namespace LiveMarkup.Codegen
open Blueprint List
open Template (bind_eq_ok)

theorem code_of_analyze? {code : String} {given : Value} (looked : analyze? code = some given) : given.code = code := by
  obtain ⟨_, -, made⟩ := Option.map_eq_some_iff.mp looked
  split at made <;> exact made ▸ rfl

/-- A passage that carries a piece of code: the code as it is written, or what the value that it is read as passes on. -/
inductive Carries (code : String) : Passage → Prop
  | written (moved : Bool) : Carries code ⟨code, false, moved⟩
  | value {given : Value} (looked : analyze? code = some given) (moved : Bool) :
      Carries code { valuePassage given with moved := moved }
  | handler {given : Value} {path : String} (looked : analyzeHandler? code = some given) (bound : given.bound = some path)
      (moved : Bool) : Carries code ⟨path, false, moved⟩

def Kept (code : String) (passages : List Passage) : Prop :=
  (∃ given, analyze? code = some given ∧ given.dynamic = false) ∨ ∃ passage ∈ passages, Carries code passage

section Keeping

variable {code : String} {p q : List Passage} {given : Value} {entry : Attribute}

theorem Kept.mono (kept : Kept code p) (subset : ∀ passage ∈ p, passage ∈ q) : Kept code q :=
  kept.imp id fun ⟨passage, mem, carries⟩ => ⟨passage, subset passage mem, carries⟩

theorem Kept.move (kept : Kept code p) : Kept code (p.map Passage.move) := by
  refine kept.imp id fun ⟨passage, mem, carries⟩ => ⟨passage.move, mem_map_of_mem mem, ?_⟩
  cases carries with
  | written => exact .written true
  | value looked => exact .value looked true
  | handler looked bound => exact .handler looked bound true

theorem carries_valuePassage (looked : analyze? code = some given) : Carries code (valuePassage given) := by
  have still : (valuePassage given).moved = false := by
    unfold valuePassage
    split
    · split <;> rfl
    · rfl
  have carried := Carries.value looked false
  rwa [← still] at carried

theorem kept_of_mem {passage : Passage} (mem : passage ∈ p) (carries : Carries code passage) : Kept code p :=
  .inr ⟨passage, mem, carries⟩

theorem kept_passage (looked : analyze? code = some given) (dynamic : given.dynamic = true → valuePassage given ∈ p) : Kept code p := by
  cases known : given.dynamic with
  | false => exact .inl ⟨given, looked, known⟩
  | true => exact kept_of_mem (dynamic known) (carries_valuePassage looked)

theorem kept_bindingPassages (embeds : entry.Embeds code) : Kept code (bindingPassages entry) := by
  cases embeds with
  | value looked =>
    refine kept_passage looked fun dynamic => ?_
    simp [bindingPassages, StaticAttributes.takes, dynamic]
  | spread | reference => exact kept_of_mem mem_cons_self (.written false)
  | directive => exact kept_of_mem (mem_cons_of_mem _ mem_cons_self) (.written false)
  | event looked =>
    rename_i handler capture span
    refine kept_of_mem mem_cons_self ?_
    cases bound : handler.bound with
    | some => exact .handler looked bound false
    | none =>
      have same : handler.code = code := by
        obtain ⟨_, -, rfl⟩ := Option.map_eq_some_iff.mp looked
        rfl
      rw [Option.getD_none, same]
      exact .written false

theorem kept_propertyPassages {given : Template.Attribute} (built : componentAttribute given = .ok entry)
    (embedded : given.code? = some code) : Kept code (propertyPassages entry) := by
  obtain ⟨_, _, _, rfl, looked⟩ | ⟨_, rfl⟩ := embeds_componentAttribute built embedded
  · exact kept_passage looked fun _ => mem_cons_self
  · exact kept_of_mem mem_cons_self (.written false)

theorem kept_tagPassages {attrs : List Attribute} (member : entry ∈ attrs) (embeds : entry.Embeds code)
    (printed : entry.printed = true) : Kept code (tagPassages attrs) := by
  have whole (computed : ComputedAttribute) (mem : computed ∈ (ComputedAttributes.ofAttributes attrs).attributes)
      (kept : wholePassage (ComputedAttributes.ofAttributes attrs).replaces computed = some ⟨code, false, false⟩) :
      Kept code (tagPassages attrs) :=
    kept_of_mem (mem_append_left _ (mem_append_left _ (mem_filterMap.mpr ⟨computed, mem, kept⟩))) (.written false)
  have toggled {name : String} {entries : List (String × String)} (mem : (name, code) ∈ entries) (last : Option String) :
      (⟨code, false, false⟩ : Passage) ∈ (if entries.isEmpty then [] else
        last.toList.map (⟨·, false, false⟩) ++ entries.map (⟨·.2, false, false⟩)) := by
    have some : entries.isEmpty = false := isEmpty_eq_false_iff.mpr (ne_nil_of_mem mem)
    rw [some]
    exact mem_append_right _ (mem_map.mpr ⟨_, mem, rfl⟩)
  cases embeds with
  | value looked =>
    rename_i kind name given span
    cases dynamic : given.dynamic with
    | false => exact .inl ⟨given, looked, dynamic⟩
    | true =>
      have same := code_of_analyze? looked
      cases kind with
      | property => cases printed
      | plain =>
        refine whole (.whole name code) (mem_filterMap.mpr ⟨_, member, ?_⟩) ?_
        · simp [dynamic, same]
        · have other : name ≠ "class" ∧ name ≠ "style" := by simpa [Attribute.printed] using printed
          simp [wholePassage, ComputedAttributes.replaces, other]
      | toggle =>
        have mem : (name, code) ∈ (ComputedAttributes.ofAttributes attrs).classes :=
          mem_filterMap.mpr ⟨_, member, by simp [dynamic, same]⟩
        exact kept_of_mem (mem_append_left _ (mem_append_right _ (toggled mem _))) (.written false)
      | style =>
        have mem : (name, code) ∈ (ComputedAttributes.ofAttributes attrs).styles :=
          mem_filterMap.mpr ⟨_, member, by simp [dynamic, same]⟩
        exact kept_of_mem (mem_append_right _ (toggled mem _)) (.written false)
      | customProperty =>
        have mem : (styleName .customProperty name, code) ∈ (ComputedAttributes.ofAttributes attrs).styles :=
          mem_filterMap.mpr ⟨_, member, by simp [dynamic, same]⟩
        exact kept_of_mem (mem_append_right _ (toggled mem _)) (.written false)
  | spread => exact whole (.spread code) (mem_filterMap.mpr ⟨_, member, rfl⟩) rfl
  | reference => cases printed
  | directive => cases printed
  | event => cases printed

end Keeping

mutual

/-- The code that a tree embeds and the code for a target has to hold: all of it for the client, what the server prints
for the server. -/
def codes (target : Target) : Template.Tree → List String
  | .text _ _ => []
  | .expression code _ => [code]
  | .fragment children _ => codesAll target children
  | .element tag attributes children _ _ =>
    (attributes.filter fun given => target == .client || Markup.Element.isComponent tag ||
      match elementAttribute given with
      | .ok entry => entry.printed
      | .error _ => false).filterMap Template.Attribute.code? ++ codesAll target children

def codesAll (target : Target) : List Template.Tree → List String
  | [] => []
  | tree :: rest => codes target tree ++ codesAll target rest

end

theorem codesAll_append (target : Target) (one two : List Template.Tree) :
    codesAll target (one ++ two) = codesAll target one ++ codesAll target two := by
  induction one with
  | nil => rfl
  | cons _ _ ih => rw [cons_append, codesAll, codesAll, ih, append_assoc]

theorem codesAll_flatten (target : Target) (trees : List Template.Tree) :
    codesAll target (flatten trees) = codesAll target trees := by
  refine read_flatten (codesAll_append target) (fun children span => ?_) trees
  rw [codesAll, codes, codesAll, append_nil]

structure KeptAll (trees : List Template.Tree) (made : List Node) : Prop where
  roots : ∀ code ∈ codesAll .client trees, Kept code (rootsPassages made).flatten
  children : ∀ code ∈ codesAll .client trees, Kept code (childrenPassages made)
  server : ∀ code ∈ codesAll .server trees, Kept code (serverNodesPassages made)

theorem rootsPassages_append (one two : List Node) : rootsPassages (one ++ two) = rootsPassages one ++ rootsPassages two := by
  induction one with
  | nil => rfl
  | cons _ _ ih => rw [cons_append, rootsPassages, rootsPassages, ih, cons_append]

theorem childrenPassages_append (one two : List Node) :
    childrenPassages (one ++ two) = childrenPassages one ++ childrenPassages two := by
  induction one with
  | nil => rfl
  | cons _ _ ih => rw [cons_append, childrenPassages, childrenPassages, ih, append_assoc]

theorem serverNodesPassages_append (one two : List Node) :
    serverNodesPassages (one ++ two) = serverNodesPassages one ++ serverNodesPassages two := by
  induction one with
  | nil => rfl
  | cons _ _ ih => rw [cons_append, serverNodesPassages, serverNodesPassages, ih, append_assoc]

theorem KeptAll.append {one two : List Template.Tree} {made more : List Node} (first : KeptAll one made)
    (second : KeptAll two more) : KeptAll (one ++ two) (made ++ more) where
  roots code mem := by
    rw [rootsPassages_append, flatten_append]
    rw [codesAll_append] at mem
    rcases mem_append.mp mem with here | there
    · exact (first.roots code here).mono fun _ => mem_append_left _
    · exact (second.roots code there).mono fun _ => mem_append_right _
  children code mem := by
    rw [childrenPassages_append]
    rw [codesAll_append] at mem
    rcases mem_append.mp mem with here | there
    · exact (first.children code here).mono fun _ => mem_append_left _
    · exact (second.children code there).mono fun _ => mem_append_right _
  server code mem := by
    rw [serverNodesPassages_append]
    rw [codesAll_append] at mem
    rcases mem_append.mp mem with here | there
    · exact (first.server code here).mono fun _ => mem_append_left _
    · exact (second.server code there).mono fun _ => mem_append_right _

variable {nodes : List Node} {slot : Slot}

theorem viewPassages_eq_flatten {fragment : Bool} (single : fragment = false → nodes.length = 1) :
    viewPassages fragment (rootsPassages nodes) = (rootsPassages nodes).flatten := by
  unfold viewPassages
  cases fragment with
  | true => rfl
  | false =>
    obtain ⟨_, rfl⟩ := length_eq_one_iff.mp (single rfl)
    simp [rootsPassages]

structure KeptSlot (children : List Template.Tree) (slot : Slot) : Prop where
  client : ∀ code ∈ codesAll .client children, Kept code (slotPassages slot)
  server : ∀ code ∈ codesAll .server children, Kept code (serverSlotPassages slot)

theorem keptSlot_of_plain {children : List Template.Tree} (shown : PlainSlot children slot) : KeptSlot children slot := by
  have single {target : Target} {code : String} {span : Template.Span} {passages : List Passage}
      (same : flatten children = [.expression code span]) (kept : Kept code passages) :
      ∀ other ∈ codesAll target children, Kept other passages := by
    rw [← codesAll_flatten, same]
    intro other mem
    obtain rfl : other = code := by simpa [codesAll, codes] using mem
    exact kept
  cases shown with
  | none flat | text flat =>
    have nothing (target : Target) : codesAll target children = [] := by rw [← codesAll_flatten, flat]; simp [codesAll, codes]
    exact ⟨nothing _ ▸ nofun, nothing _ ▸ nofun⟩
  | constant flat looked still =>
    have kept {passages : List Passage} : Kept _ passages :=
      .inl ⟨_, analyze_eq_ok looked, by rw [Value.dynamic, still]; rfl⟩
    exact ⟨single flat kept, single flat kept⟩
  | @expression code _ given flat looked =>
    have kept : Kept code [⟨given.code, false, false⟩] :=
      kept_of_mem mem_cons_self (code_of_analyze? (analyze_eq_ok looked) ▸ .written false)
    exact ⟨single flat kept, single flat kept⟩

theorem keptAll_singleton {tree : Template.Tree} {node : Node} (root : ∀ code ∈ codes .client tree, Kept code (rootPassages node))
    (child : ∀ code ∈ codes .client tree, Kept code (childPassages node))
    (server : ∀ code ∈ codes .server tree, Kept code (serverNodePassages node)) : KeptAll [tree] [node] where
  roots := by simpa [codesAll, rootsPassages] using root
  children := by simpa [codesAll, childrenPassages] using child
  server := by simpa [codesAll, serverNodesPassages] using server

theorem keptAll_expression {code : String} {given : Value} (looked : analyze? code = some given) (span : Template.Span) :
    KeptAll [.expression code span] [.expression given span] := by
  refine keptAll_singleton ?_ ?_ ?_ <;> intro other mem <;> obtain rfl := mem_singleton.mp mem
  · exact kept_passage looked fun dynamic => by simp [rootPassages, dynamic]
  · rw [childPassages]
    split
    · rename_i dynamic
      exact (kept_of_mem (p := [valuePassage given]) mem_cons_self (carries_valuePassage looked)).move
    · rename_i constant
      exact .inl ⟨given, looked, by simpa using constant⟩
  · rw [serverNodePassages]
    split
    · have same := code_of_analyze? looked
      exact kept_of_mem mem_cons_self (same ▸ .written false)
    · rename_i constant
      exact .inl ⟨given, looked, by simpa using constant⟩

section Elements

variable {tag : String} {attrs : List Template.Attribute} {children : List Template.Tree} {closed : Bool}
  {span : Template.Span} {entries : List Attribute}

theorem keptAll_component (component : Component) (slotted : KeptSlot children slot)
    (mapped : attrs.mapM componentAttribute = .ok entries) :
    KeptAll [.element tag attrs children closed span] [.component component entries slot] := by
  have given {target : Target} {code : String} {inner : List Passage}
      (kept : ∀ code ∈ codesAll target children, Kept code inner)
      (member : code ∈ codes target (.element tag attrs children closed span)) :
      Kept code (⟨component.path, false, false⟩ :: entries.flatMap propertyPassages ++ inner) := by
    rw [codes] at member
    rcases mem_append.mp member with here | there
    · obtain ⟨_, mem, embedded⟩ := mem_filterMap.mp here
      obtain ⟨entry, found, built⟩ := exists_of_forall₂ (forall₂_of_mapM mapped).flip (mem_filter.mp mem).1
      refine (kept_propertyPassages built embedded).mono fun passage member => ?_
      exact mem_append_left _ (mem_cons_of_mem _ (mem_flatMap.mpr ⟨entry, found, member⟩))
    · exact (kept code there).mono fun passage member => mem_append_right _ member
  refine keptAll_singleton (fun code member => ?_) (fun code member => ?_) fun code member => ?_
  · rw [rootPassages]
    exact given slotted.client member
  · rw [childPassages]
    exact (given slotted.client member).move
  · rw [serverNodePassages]
    exact given slotted.server member

theorem keptAll_element (element : Element) (ordinary : Markup.Element.isComponent tag = false) {inner : List Node}
    (nested : KeptAll children inner) (mapped : attrs.mapM elementAttribute = .ok entries) :
    KeptAll [.element tag attrs children closed span] [.element element entries inner] := by
  have client {code : String} (member : code ∈ codes .client (.element tag attrs children closed span)) :
      Kept code (entries.flatMap bindingPassages ++ childrenPassages inner) := by
    rw [codes] at member
    rcases mem_append.mp member with here | there
    · obtain ⟨_, mem, embedded⟩ := mem_filterMap.mp here
      obtain ⟨entry, found, built⟩ := exists_of_forall₂ (forall₂_of_mapM mapped).flip (mem_filter.mp mem).1
      refine (kept_bindingPassages (embeds_elementAttribute built embedded)).mono fun passage member => ?_
      exact mem_append_left _ (mem_flatMap.mpr ⟨entry, found, member⟩)
    · exact (nested.children code there).mono fun passage member => mem_append_right _ member
  refine keptAll_singleton (fun code member => ?_) (fun code member => ?_) fun code member => ?_
  · rw [rootPassages]
    exact client member
  · rw [childPassages]
    exact client member
  · rw [serverNodePassages]
    rw [codes] at member
    rcases mem_append.mp member with here | there
    · obtain ⟨_, mem, embedded⟩ := mem_filterMap.mp here
      obtain ⟨listed, prints⟩ := mem_filter.mp mem
      obtain ⟨entry, found, built⟩ := exists_of_forall₂ (forall₂_of_mapM mapped).flip listed
      rw [built, ordinary] at prints
      have printed : entry.printed = true := by
        rwa [show (Target.server == Target.client) = false from rfl, Bool.false_or, Bool.false_or] at prints
      exact (kept_tagPassages found (embeds_elementAttribute built embedded) printed).mono fun _ => mem_append_left _
    · exact (nested.server code there).mono fun passage member => mem_append_right _ member

end Elements

theorem keptAll_nodes {inSvg : Bool} {trees : List Template.Tree} (made : NodesOf inSvg trees nodes) : KeptAll trees nodes := by
  induction made with
  | nil => exact ⟨nofun, nofun, nofun⟩
  | cons _ _ first others => exact first.append others
  | text => exact keptAll_singleton nofun nofun nofun
  | expression looked => exact keptAll_expression (analyze_eq_ok looked) _
  | @fragment _ children span _ _ inner =>
    have same (target : Target) : codesAll target [.fragment children span] = codesAll target children := by
      simp [codesAll, codes]
    exact ⟨same .client ▸ inner.roots, same .client ▸ inner.children, same .server ▸ inner.server⟩
  | element ordinary _ _ _ mapped _ inner => exact keptAll_element _ ordinary inner mapped
  | component _ shown mapped => exact keptAll_component _ (keptSlot_of_plain shown) mapped
  | wrapper _ below listed mapped inner =>
    refine keptAll_component _ ⟨fun code mem => ?_, inner.server⟩ mapped
    rw [slotPassages, viewPassages_eq_flatten (below.length_eq_one listed)]
    exact inner.roots code mem

theorem value_reworded_id (given : Value) : given.reworded id = given := by
  cases given
  simp [Value.reworded]

theorem attribute_reworded_id (entry : Attribute) : entry.reworded id = entry := by
  cases entry <;> simp [Attribute.reworded, value_reworded_id]

mutual

theorem node_reworded_id (node : Node) : node.reworded id = node := by
  match node with
  | .text _ => rfl
  | .expression _ _ => rw [Node.reworded, value_reworded_id]
  | .element _ _ _ =>
    rw [Node.reworded, rewordedAll_id, map_congr_left (fun entry _ => attribute_reworded_id entry), map_id']
  | .component _ _ _ =>
    rw [Node.reworded, slot_reworded_id, map_congr_left (fun entry _ => attribute_reworded_id entry), map_id']
    rfl

theorem slot_reworded_id (slot : Slot) : slot.reworded id = slot := by
  match slot with
  | .none => rfl
  | .text _ => rfl
  | .expression _ => rw [Slot.reworded, value_reworded_id]
  | .nested _ _ => rw [Slot.reworded, rewordedAll_id]

theorem rewordedAll_id (nodes : List Node) : rewordedAll id nodes = nodes := by
  match nodes with
  | [] => rfl
  | node :: rest => rw [rewordedAll, node_reworded_id, rewordedAll_id]

end

theorem blueprint_reworded_id (blueprint : Blueprint) : blueprint.reworded id = blueprint := by
  rw [Blueprint.reworded, rewordedAll_id]

section Codes

open Expression.Lexer

theorem kept_build {roots : List Template.Tree} {blueprint : Blueprint} (built : Blueprint.build roots = .ok blueprint)
    (target : Target) :
    ∀ code ∈ codesAll target roots, Kept code (passages target blueprint) := by
  obtain ⟨made, single⟩ := nodesOf_build built
  have all := keptAll_nodes made
  intro code mem
  cases target with
  | client =>
    rw [passages, viewPassages_eq_flatten single]
    exact all.roots code mem
  | server => exact all.server code mem

/-- The code of a template is cut into the generator's own tokens and those of its passages as they are written, each
passage once, and every expression is a constant or has its passage. The generator's own tokens are the same whatever
the passages say. Each passage has to be cut into tokens by itself, without a comment that goes on to the end of its
line behind them, and no token of a passage whose lines are moved may have a line break in it. -/
theorem expressions_reach_code (context : Context) {source : String} {roots : List Template.Tree} {blueprint : Blueprint}
    (read : Template.parse source = .ok roots ∨ ∃ bytes, Template.parseBlock source = .ok (roots, bytes))
    (built : Blueprint.build roots = .ok blueprint) :
    Template.Tree.PlacedAll source.toList roots ∧
      (∀ code ∈ codesAll context.target roots, Kept code (passages context.target blueprint)) ∧
      ∃ weave : List Piece, (weave.filterMap Piece.passage?).Perm (passages context.target blueprint) ∧
        ((∀ passage ∈ passages context.target blueprint, passage.Fits id) →
          spelling? (generate blueprint context).1.toList = some (weave.flatMap (Piece.tokens id))) ∧
        ∀ wording, (∀ passage ∈ passages context.target blueprint, passage.Fits wording) →
          spelling? (generate (blueprint.reworded wording) context).1.toList = some (weave.flatMap (Piece.tokens wording)) := by
  have placed : Template.Tree.PlacedAll source.toList roots := by
    rcases read with whole | ⟨bytes, block⟩
    · exact Template.placedAll_parse whole
    · exact Template.placedAll_parseBlock block
  refine ⟨placed, kept_build built context.target, ?_⟩
  obtain ⟨weave, each, -, read⟩ := (woven_generate context blueprint).spelled
  have reads (wording : Wording) (fits : ∀ passage ∈ passages context.target blueprint, passage.Fits wording) :=
    spelling?_iff.mpr (read wording fits)
  refine ⟨weave, each, fun fits => ?_, reads⟩
  have whole := reads id fits
  dsimp only at whole
  rwa [blueprint_reworded_id] at whole

end Codes

section Paragraphs

open Expression.Lexer

def paragraph (code : String) : String := "<p>\x7b" ++ code ++ "\x7d</p>"

def shortCall : String := "f(\"a b\")"

theorem parse_shortCall : Template.parse (paragraph shortCall) =
    .ok (paragraphTrees shortCall ⟨⟨3, 1, 4⟩, 13⟩ ⟨⟨0, 1, 1⟩, 17⟩) := by cbv

theorem analyze_shortCall : analyze? shortCall = some ⟨shortCall, none, true, none⟩ := by decide +kernel

/-- The literal of the short call is a token of the code of its paragraph. -/
theorem expressions_reach_code_shortCall :
    Template.parse (paragraph shortCall) = .ok (paragraphTrees shortCall ⟨⟨3, 1, 4⟩, 13⟩ ⟨⟨0, 1, 1⟩, 17⟩) ∧
      Blueprint.build (paragraphTrees shortCall ⟨⟨3, 1, 4⟩, 13⟩ ⟨⟨0, 1, 1⟩, 17⟩) =
        .ok (paragraphBlueprint shortCall ⟨⟨3, 1, 4⟩, 13⟩ ⟨⟨0, 1, 1⟩, 17⟩) ∧
      ∃ weave : List Piece, ⟨shortCall, true, true⟩ ∈ weave.filterMap Piece.passage? ∧
        spelling? (generate (paragraphBlueprint shortCall ⟨⟨3, 1, 4⟩, 13⟩ ⟨⟨0, 1, 1⟩, 17⟩) (.ofOptions {})).1.toList =
          some (weave.flatMap (Piece.tokens id)) := by
  have built := @build_paragraph shortCall ⟨⟨3, 1, 4⟩, 13⟩ ⟨⟨0, 1, 1⟩, 17⟩ analyze_shortCall
  obtain ⟨-, -, weave, each, read, -⟩ := expressions_reach_code (.ofOptions {}) (.inl parse_shortCall) built
  have only : passages Target.client (paragraphBlueprint shortCall ⟨⟨3, 1, 4⟩, 13⟩ ⟨⟨0, 1, 1⟩, 17⟩) = [⟨shortCall, true, true⟩] := by
    decide +kernel
  refine ⟨parse_shortCall, built, weave, each.mem_iff.mpr (only ▸ mem_cons_self), read fun passage member => ?_⟩
  obtain rfl := mem_singleton.mp (only ▸ member)
  have cut : spelling? shortCall.toList = some (spelling shortCall.toList) := by decide +kernel
  exact ⟨_, spelling?_iff.mp cut, fun _ => by decide +kernel⟩

def longCall : String := "f(\"a\nb\")"

theorem parse_longCall : Template.parse (paragraph longCall) =
    .ok (paragraphTrees longCall ⟨⟨3, 1, 4⟩, 13⟩ ⟨⟨0, 1, 1⟩, 17⟩) := by cbv

theorem analyze_longCall : analyze? longCall = some ⟨longCall, none, true, none⟩ := by decide +kernel

/-- The tokens of an expression need not be those of the code: the second line of a literal has moved in the client's. -/
theorem literal_line_moved :
    ¬ ∀ (context : Context) (source : String) (roots : List Template.Tree) (blueprint : Blueprint),
      Template.parse source = .ok roots → Blueprint.build roots = .ok blueprint →
        ∀ code ∈ codesAll context.target roots, ∀ given tokens, analyze? code = some given → given.dynamic = true →
          given.bound = none → spelling? code.toList = some tokens →
            ∀ token ∈ tokens, token ∈ spelling (generate blueprint context).1.toList := by
  intro reach
  have built := @build_paragraph longCall ⟨⟨3, 1, 4⟩, 13⟩ ⟨⟨0, 1, 1⟩, 17⟩ analyze_longCall
  have cut : spelling? longCall.toList = some (spelling longCall.toList) := by decide +kernel
  have kept := reach (.ofOptions {}) _ _ _ parse_longCall built longCall (mem_cons_self ..) _ _ analyze_longCall rfl rfl cut
  exact absurd kept (by decide +kernel)

end Paragraphs
end LiveMarkup.Codegen
