import LiveMarkup.Proofs.WovenCalls

/-!
The code of both generators for a whole template: what the passages of the template say stands in it as written.
-/

namespace LiveMarkup.Codegen
open Blueprint Expression.Lexer List StaticAttributes Attribute
open String hiding data

section Sketches

variable {α β : Type} {program : Wording → ClientProgram} {passages p q : List Passage}
variable {post : (Wording → α) → Prop} {act : Wording → ClientGen α}

structure Sketch (program : Wording → ClientProgram) (passages : List Passage) : Prop where
  same : ∀ wording, program wording = { program id with statements := (program wording).statements }
  charted : Charted (program id)
  isEmpty_eq : ∀ wording, (program wording).statements.isEmpty = (program id).statements.isEmpty
  none : (program id).statements = [] → passages = []
  calls : Leading (fun wording => String.join ((program wording).statements.map Statement.line)) passages

/-- What a part of the client's generator makes when passages say something else: it adds calls with these passages. -/
def Draws (act : Wording → ClientGen α) (added : List Passage) (post : (Wording → α) → Prop) : Prop :=
  ∀ program passages, Sketch program passages → Yields (fun wording => act wording (program wording)) fun made =>
    post (fun wording => (made wording).1) ∧ Sketch (fun wording => (made wording).2) (passages ++ added)

theorem Sketch.perm (sketch : Sketch program p) (same : p.Perm q) : Sketch program q :=
  ⟨sketch.same, sketch.charted, sketch.isEmpty_eq, fun empty => (sketch.none empty ▸ same).nil_eq.symm, WovenAs.perm sketch.calls same⟩

theorem Draws.perm {post : (Wording → α) → Prop} (draws : Draws act p post) (same : p.Perm q) :
    Draws act q post := fun program passages sketch =>
  (draws program passages sketch).mono fun _ made => ⟨made.1, made.2.perm (same.append_left passages)⟩

theorem draws_pure {value : Wording → α} (holds : post value) :
    Draws (fun wording => pure (value wording)) [] post := fun program passages sketch => by
  show Yields (fun wording => (pure (value wording, program wording) : Gen (α × ClientProgram))) _
  exact yields_pure ⟨holds, by simpa using sketch⟩

theorem Draws.bind {next : Wording → α → ClientGen β} {middle : (Wording → α) → Prop}
    {post : (Wording → β) → Prop} (first : Draws act p middle)
    (second : ∀ value, middle value → Draws (fun wording => next wording (value wording)) q post) :
    Draws (fun wording => act wording >>= next wording) (p ++ q) post := by
  intro program passages sketch
  show Yields (fun wording => act wording (program wording) >>= fun made => next wording made.1 made.2) _
  refine (first program passages sketch).bind fun made holds => (second _ holds.1 _ _ holds.2).mono fun made holds => ⟨holds.1, ?_⟩
  simpa using holds.2

theorem draws_any (draws : Draws act p post) : Draws (fun wording => discard (act wording)) p fun _ => True := by
  intro program passages sketch
  show Yields (fun wording => act wording (program wording) >>= fun made => (pure ((), made.2) : Gen (Unit × ClientProgram))) _
  exact (draws program passages sketch).bind fun made holds => yields_pure ⟨trivial, holds.2⟩

theorem draws_lift {act : Wording → Gen α} (yields : Yields act post) :
    Draws (fun wording => (act wording : ClientGen α)) [] post := fun program passages sketch => by
  show Yields (fun wording => act wording >>= fun value => (pure (value, program wording) : Gen (α × ClientProgram))) _
  exact yields.bind fun value holds => yields_pure ⟨holds, by simpa using sketch⟩

theorem draws_emit (html : String) : Draws (fun _ => ClientGen.emit html) [] fun _ => True := fun program passages sketch => by
  show Yields (fun wording => (pure ((), { program wording with html := (program wording).html ++ html }) :
    Gen (Unit × ClientProgram))) _
  refine yields_pure ⟨trivial, fun wording => ?_, ⟨sketch.charted.chart, sketch.charted.given⟩, sketch.isEmpty_eq,
    fun empty => by simpa using sketch.none empty, by simpa using sketch.calls⟩
  dsimp only
  rw [sketch.same wording]

theorem draws_recordStatement {statement : Wording → Statement} (woven : StatementWoven statement p) :
    Draws (fun wording => recordStatement (statement wording)) p fun _ => True := fun program passages sketch => by
  have run (wording : Wording) : recordStatement (statement wording) (program wording) = (do
      discard (Gen.runtime (statement id).function)
      pure ((), { program wording with statements := (program wording).statements ++ [statement wording] }) :
        Gen (Unit × ClientProgram)) := by
    rw [recordStatement, woven.function wording]
    rfl
  simp only [run]
  refine (yields_any (yields_runtime _)).bind fun _ _ => yields_pure ⟨trivial, ?_⟩
  refine ⟨fun wording => ?_, ⟨sketch.charted.chart, sketch.charted.given⟩, fun wording => ?_, fun empty => by simp at empty, ?_⟩
  · dsimp only
    rw [sketch.same wording]
  · have some (front : List Statement) (last : Statement) : (front ++ [last]).isEmpty = false := by cases front <;> rfl
    rw [some, some]
  · simpa using sketch.calls.append woven.leading

section Reaching

variable {one two : ClientProgram}

theorem siblingBelow_congr (same : one.located = two.located) (parent : Address) (index : Nat) :
    one.siblingBelow parent index = two.siblingBelow parent index := by
  induction index with
  | zero => rfl
  | succ _ ih => simp only [ClientProgram.siblingBelow, ClientProgram.localAt?, same, ih]

theorem resolve_congr (same : one.located = two.located) (address : Address) : one.resolve address = two.resolve address := by
  induction address with
  | nil => rfl
  | cons _ _ ih =>
    simp only [ClientProgram.resolve, ClientProgram.localAt?, same, siblingBelow_congr same, ih]

theorem reach_eq (base : String) (address : Address) (program : ClientProgram) :
    ClientGen.reach base address program = (match program.localAt? address with
      | some name => pure (name, program)
      | none => do
        discard (Gen.runtime "walk")
        pure ((program.names.declare base "").1, reaching program base address) : Gen (String × ClientProgram)) := by
  funext context
  show ((match program.localAt? address with
    | some name => pure name
    | none => _ : ClientGen String) program context) = _
  cases program.localAt? address <;> rfl

theorem ownName_base {base : String} (known : base ∈ bases) (n : Nat) : OwnName (Declarations.nameFor base n).toList := by
  refine ownName_nameFor ?_ n
  simp only [bases, mem_cons, not_mem_nil, or_false] at known
  rcases known with rfl | rfl <;> exact ownName_of_all (by decide)

theorem ownName_of_charted {program : ClientProgram} (charted : Charted program) {entry : Address × String}
    (mem : entry ∈ program.located) : OwnName entry.2.toList := by
  obtain ⟨_, known, n, -, named⟩ := charted.given entry mem
  rw [named]
  exact ownName_base known n

end Reaching

theorem draws_reach (base : String) (known : base ∈ bases) (address : Address) :
    Draws (fun _ => ClientGen.reach base address) [] fun value => ∃ name : String, OwnName name.toList ∧ value = fun _ => name := by
  intro program passages sketch
  have located (wording : Wording) : (program wording).located = (program id).located := by rw [sketch.same wording]
  have local? (wording : Wording) : (program wording).localAt? address = (program id).localAt? address := by
    rw [ClientProgram.localAt?, ClientProgram.localAt?, located]
  simp only [reach_eq, local?]
  cases found : (program id).localAt? address with
  | some name =>
    exact yields_pure ⟨⟨name, ownName_of_charted sketch.charted (localAt?_some found), rfl⟩, by simpa using sketch⟩
  | none =>
    have names (wording : Wording) : (program wording).names = (program id).names := by rw [sketch.same wording]
    refine (yields_any (yields_runtime "walk")).bind fun _ _ => yields_pure
      ⟨⟨((program id).names.declare base "").1, ownName_base known _, funext fun wording => ?_⟩, ?_⟩
    · dsimp only
      rw [names]
    · rw [append_nil]
      refine ⟨fun wording => ?_, charted_reaching known sketch.charted address, sketch.isEmpty_eq, sketch.none, sketch.calls⟩
      dsimp only
      rw [reaching, reaching, resolve_congr (located wording), names, located, sketch.same wording]

theorem draws_statements {statements : List (Wording → Statement)} {passages : List (List Passage)}
    (each : Forall₂ StatementWoven statements passages) :
    Draws (fun wording => forIn (statements.map (· wording)) PUnit.unit fun statement _ => do
        recordStatement statement
        return ForInStep.yield PUnit.unit) passages.flatten fun _ => True := by
  induction each with
  | nil => exact draws_pure trivial
  | @cons statement p _ _ woven _ ih =>
    simp only [map_cons, forIn_cons]
    have first : Draws (fun wording => do
        recordStatement (statement wording)
        return ForInStep.yield PUnit.unit) p (· = fun _ => ForInStep.yield PUnit.unit) := by
      have go : Draws (fun _ => pure (ForInStep.yield PUnit.unit)) [] (· = fun _ => ForInStep.yield PUnit.unit) := draws_pure rfl
      exact ((draws_recordStatement woven).bind fun _ _ => go).perm (by simp)
    exact first.bind fun _ same => by rw [same]; exact ih

theorem dynamic_reworded (entry : Attribute) (wording : Wording) : (entry.reworded wording).dynamic = entry.dynamic := by
  cases entry <;> rfl

theorem bindingPassages_of_static {entry : Attribute} (still : entry.dynamic = false) : bindingPassages entry = [] := by
  cases entry with
  | value =>
    rw [dynamic, Bool.or_eq_false_iff] at still
    simp [bindingPassages, takes, bne, still.1, still.2]
  | _ => cases still

theorem ofAttributes_reworded (attrs : List Attribute) (wording : Wording) :
    ofAttributes (attrs.map (reworded wording)) = ofAttributes attrs := by
  rw [ofAttributes, ofAttributes, foldl_map]
  congr 1
  funext statics entry
  cases entry <;> rfl

theorem draws_element (address : Address) (element : Element) (attrs : List Attribute) {inner : Wording → ClientGen Unit}
    (within : Draws inner p fun _ => True) :
    Draws (fun wording => clientElement address element (attrs.map (reworded wording)) (inner wording))
      (attrs.flatMap bindingPassages ++ p) fun _ => True := by
  have body : Draws (fun wording => do
      ClientGen.emit ("<" ++ element.tag ++
        join ((ofAttributes attrs).merged.map renderAttribute) ++ ">")
      inner wording
      if (!element.isVoid) = true then ClientGen.emit ("</" ++ element.tag ++ ">") else pure ()) p fun _ => True := by
    have closing : Draws (fun _ => if (!element.isVoid) = true then ClientGen.emit ("</" ++ element.tag ++ ">") else pure ()) []
        fun _ => True := by
      split
      · exact draws_emit _
      · exact draws_pure trivial
    exact ((draws_emit _).bind fun _ _ => within.bind fun _ _ => closing).perm (by simp)
  have dynamic (wording : Wording) : (attrs.map (reworded wording)).any dynamic = attrs.any dynamic := by
    rw [any_map]
    congr 1
    funext entry
    exact dynamic_reworded entry wording
  unfold clientElement
  simp only [isSome_attributeStatement?, dynamic, ofAttributes_reworded]
  split
  · refine ((draws_reach "__el" (by decide) address).bind (q := attrs.flatMap bindingPassages ++ p) ?_).perm (by simp)
    rintro _ ⟨target, own, rfl⟩
    obtain ⟨_, _, made, each, all⟩ := filterMap_woven own attrs
    obtain ⟨ordered, qs, same, each, order⟩ := orderStatements_woven .nil .nil false each
    have calls (wording : Wording) : orderStatements [] [] false
        ((attrs.map (reworded wording)).filterMap (attributeStatement? target)) = ordered.map (· wording) := by
      rw [made, ← same]
      rfl
    simp only [calls]
    have found : qs.flatten.Perm (attrs.flatMap bindingPassages) := by simpa [all] using order
    exact ((draws_statements each).bind fun _ _ => body).perm (found.append_right p)
  · rename_i still
    have none : attrs.flatMap bindingPassages = [] := by
      rw [flatMap_eq_nil_iff]
      exact fun entry mem => bindingPassages_of_static (by simpa using any_eq_false.mp (by simpa using still) entry mem)
    rw [none]
    exact body

def Steady (value : Wording → α) : Prop := ∃ a, value = fun _ => a

theorem draws_text (cursor : ChildCursor) (text : String) : Draws (fun _ => clientText cursor text) [] Steady := by
  unfold clientText
  split
  · exact draws_pure ⟨cursor, rfl⟩
  · have next : Draws (fun _ => pure (if cursor.afterText then cursor else ⟨cursor.index + 1, true⟩)) [] Steady := draws_pure ⟨_, rfl⟩
    exact (draws_emit _).bind fun _ _ => next

theorem draws_region (sole : Bool) (parent : Address) (cursor : ChildCursor) {code : Wording → String} (woven : Woven code p) :
    Draws (fun wording => clientRegion sole parent cursor (code wording)) (p.map Passage.move) Steady := by
  unfold clientRegion
  cases sole with
  | true =>
    refine ((draws_reach "__el" (by decide) parent).bind (q := p.map Passage.move) ?_).perm (by simp)
    rintro _ ⟨target, own, rfl⟩
    have call : StatementWoven (fun wording => .insert target (code wording)) (p.map Passage.move) :=
      ⟨fun _ => rfl, fun _ => rfl, fun _ => rfl, leading_line (fun _ => rfl) (by
        simpa [Statement.arguments] using ((woven_reference own).comma woven.indent).append (stops_own ", None" (by decide))
          (woven_word ", None" (by decide) (by decide)))⟩
    have next : Draws (fun _ => pure cursor) [] Steady := draws_pure ⟨cursor, rfl⟩
    exact ((draws_recordStatement call).bind fun _ _ => next).perm (by simp)
  | false =>
    refine ((draws_emit _).bind (q := p.map Passage.move) fun _ _ =>
      ((draws_reach "__m" (by decide) _).bind (q := p.map Passage.move) ?_).perm (by simp)).perm (by simp)
    rintro _ ⟨marker, own, rfl⟩
    have call : StatementWoven (fun wording => .insertAtMarker marker (code wording)) (p.map Passage.move) :=
      ⟨fun _ => rfl, fun _ => rfl, fun _ => rfl, leading_line (fun _ => rfl) (by
        simpa [Statement.arguments] using (woven_reference own).comma woven.indent)⟩
    have next : Draws (fun _ => pure (⟨cursor.index + 1, false⟩ : ChildCursor)) [] Steady := draws_pure ⟨_, rfl⟩
    exact ((draws_recordStatement call).bind fun _ _ => next).perm (by simp)

end Sketches

theorem leading_lines {texts : List String} (each : ∀ text ∈ texts, Leading (fun _ => text) []) :
    Leading (fun _ => join texts) [] := by
  induction texts with
  | nil => exact leading_own "" (by decide)
  | cons text _ ih =>
    simpa using (each text mem_cons_self).append (ih fun other mem => each other (mem_cons_of_mem text mem))

theorem leading_binding {name code : String} (own : OwnName name.toList) (woven : Woven (fun _ => code) []) :
    Leading (fun _ => "    let " ++ name ++ " = " ++ code ++ ";\n") [] := by
  have front := (leading_own "    let " (by decide)).then (woven_name own)
  have equals := front.then (stops_own " = " (by decide)) (leading_own " = " (by decide))
  exact (equals.then woven).then (stops_own ";\n" (by decide)) (leading_own ";\n" (by decide))

theorem ownNames_of_chart {located final : List (Address × String)} {walks : List Walk} (chart : Chart located walks final)
    (own : ∀ entry ∈ final, OwnName entry.2.toList) :
    ∀ walk ∈ walks, OwnName walk.declared.toList ∧ OwnName walk.origin.toList := by
  induction chart with
  | nil => exact nofun
  | cons known _ _ later ih =>
    have mem := later.subset
    intro walk member
    rcases mem_cons.mp member with rfl | member
    · exact ⟨own _ (mem (mem_append_right _ mem_cons_self)), own _ (mem (mem_append_left _ known))⟩
    · exact ih own walk member

theorem leading_walk {walk : Walk} (own : OwnName walk.declared.toList ∧ OwnName walk.origin.toList) :
    Leading (fun _ => "    let " ++ walk.declared ++ " = " ++ ("__walk(&" ++ walk.origin ++ ", " ++ stringLiteral walk.path ++ ")") ++ ";\n") [] := by
  refine leading_binding own.1 ?_
  have call := ((woven_reference own.2).comma (woven_literal walk.path)).enclosed "__walk(" ")" (by decide) (by decide) (by decide)
  have same : "__walk(&" ++ walk.origin ++ ", " ++ stringLiteral walk.path ++ ")" =
      "__walk(" ++ ("&" ++ walk.origin ++ ", " ++ stringLiteral walk.path) ++ ")" := by
    rw [← toList_inj]
    simp
  rw [same]
  exact call.woven

theorem yields_render {program : Wording → ClientProgram} {passages : List Passage} (sketch : Sketch program passages) (svgRoot : Bool) :
    Yields (fun wording => (program wording).render svgRoot) (Woven · passages) := by
  have html (wording : Wording) : (program wording).html = (program id).html := by rw [sketch.same wording]
  have walks (wording : Wording) : (program wording).walks = (program id).walks := by rw [sketch.same wording]
  unfold ClientProgram.render
  simp only [html, walks, sketch.isEmpty_eq]
  refine (yields_runtime _).bind ?_
  rintro _ rfl
  refine (yields_any (yields_runtime "Template")).bind fun _ _ => ?_
  have hoisted : OwnName "__TMPL".toList := ownName_of_all (by decide)
  refine (yields_hoist hoisted _).bind ?_
  rintro _ ⟨template, own, rfl⟩
  refine (yields_runtime "clone").bind ?_
  rintro _ rfl
  have root : Woven (fun _ => template ++ ".with(" ++ ("__" ++ "clone") ++ ")") [] := by
    rw [show template ++ ".with(" ++ ("__" ++ "clone") ++ ")" = template ++ ".with(__clone)" by
      rw [← String.toList_inj]
      simp]
    exact woven_name_then own ".with(__clone)" (by decide) (by decide) (by decide)
  split
  · rename_i empty
    rw [Bool.and_eq_true, List.isEmpty_iff, List.isEmpty_iff] at empty
    rw [sketch.none empty.2]
    exact yields_pure root
  · have own : OwnName ClientProgram.rootName.toList := ownName_of_all (by decide)
    have first := leading_binding own root
    have names := ownNames_of_chart sketch.charted.chart fun entry mem => ownName_of_charted sketch.charted mem
    have steps : Leading (fun _ => String.join ((program id).walks.map fun walk =>
        "    let " ++ walk.declared ++ " = " ++ ("__walk(&" ++ walk.origin ++ ", " ++ stringLiteral walk.path ++ ")") ++ ";\n")) [] :=
      leading_lines fun text mem => by
        obtain ⟨walk, member, rfl⟩ := mem_map.mp mem
        exact leading_walk (names walk member)
    have whole := ((((leading_own "\x7b\n" (by decide)).append first).append steps).append sketch.calls).then
      (woven_word ("    " ++ ClientProgram.rootName ++ "\n\x7d") (by decide) (by decide))
    refine yields_pure ?_
    have line : Statement.line = fun statement => "    " ++ statement.render ++ "\n" := rfl
    simpa [line, String.append_assoc] using whole

/-- The passages of a view: those of every root, or of the only one. -/
def viewPassages (fragment : Bool) (passages : List (List Passage)) : List Passage :=
  if fragment then passages.flatten else passages.headD []

mutual

def rootPassages : Node → List Passage
  | .text _ => []
  | .expression given _ => [if given.dynamic then valuePassage given else ⟨given.code, false, false⟩]
  | .component component attributes slot =>
    ⟨component.path, false, false⟩ :: attributes.flatMap propertyPassages ++ slotPassages slot
  | .element _ attributes children => attributes.flatMap bindingPassages ++ childrenPassages children

def childPassages : Node → List Passage
  | .text _ => []
  | .expression given _ => if given.dynamic then [(valuePassage given).move] else []
  | .component component attributes slot =>
    (⟨component.path, false, false⟩ :: attributes.flatMap propertyPassages ++ slotPassages slot).map Passage.move
  | .element _ attributes children => attributes.flatMap bindingPassages ++ childrenPassages children

def childrenPassages : List Node → List Passage
  | [] => []
  | node :: rest => childPassages node ++ childrenPassages rest

def slotPassages : Slot → List Passage
  | .none => []
  | .text _ => []
  | .expression given => [⟨given.code, false, false⟩]
  | .nested fragment roots => viewPassages fragment (rootsPassages roots)

def rootsPassages : List Node → List (List Passage)
  | [] => []
  | node :: rest => rootPassages node :: rootsPassages rest

end

theorem sketch_start : Sketch (fun _ => .start) [] :=
  ⟨fun _ => rfl, charted_start, fun _ => rfl, fun _ => rfl, leading_own "" (by decide)⟩

theorem dynamic_reworded_value (given : Value) (wording : Wording) : (given.reworded wording).dynamic = given.dynamic := rfl

theorem yields_view {codes : List (Wording → String)} {passages : List (List Passage)} (each : Forall₂ Woven codes passages)
    (fragment : Bool) : Yields (fun wording => clientView fragment (codes.map (· wording))) (Woven · (viewPassages fragment passages)) := by
  unfold clientView viewPassages
  cases fragment with
  | false =>
    cases each with
    | nil => exact yields_pure (woven_word "()" (by decide) (by decide))
    | cons first => exact yields_pure first
  | true =>
    refine (yields_runtime "IntoView").bind ?_
    rintro _ rfl
    refine (yields_runtime "View").bind ?_
    rintro _ rfl
    refine yields_pure ?_
    have views : Forall₂ Woven (codes.map fun code wording => "__IntoView::into_view(" ++ code wording ++ ")") passages := by
      rw [forall₂_map_left_iff]
      exact each.imp fun code p woven => (woven.enclosed "__IntoView::into_view(" ")" (by decide) (by decide) (by decide)).woven
    have whole := (woven_intercalate views).enclosed "__View::list(vec![" "])" (by decide) (by decide) (by decide)
    simpa [Function.comp_def] using whole.woven

mutual

theorem yields_slot (slot : Slot) : Yields (fun wording => clientSlot (slot.reworded wording)) fun value =>
    ∃ children, (value = fun wording => children.map (· wording)) ∧ GivenWoven children (slotPassages slot) := by
  match slot with
  | .none => exact yields_pure ⟨none, rfl, rfl⟩
  | .text data => exact yields_pure ⟨some fun _ => stringLiteral data, rfl, woven_literal data⟩
  | .expression given => exact yields_pure ⟨some fun wording => wording given.code, rfl, woven_passage given.code⟩
  | .nested fragment roots =>
    simp only [Slot.reworded, clientSlot]
    refine (yields_roots roots).bind ?_
    rintro _ ⟨_, rfl, each⟩
    exact (yields_view each fragment).bind fun code woven => yields_pure ⟨some code, rfl, woven⟩

theorem yields_roots (nodes : List Node) : Yields (fun wording => clientRoots (rewordedAll wording nodes)) fun value =>
    ∃ codes, (value = fun wording => codes.map (· wording)) ∧ Forall₂ Woven codes (rootsPassages nodes) := by
  match nodes with
  | [] => exact yields_pure ⟨[], rfl, .nil⟩
  | node :: rest =>
    simp only [rewordedAll, clientRoots]
    refine (yields_root node).bind fun code woven => (yields_roots rest).bind ?_
    rintro _ ⟨codes, rfl, each⟩
    exact yields_pure ⟨code :: codes, rfl, .cons woven each⟩

theorem yields_root (node : Node) : Yields (fun wording => clientRoot (node.reworded wording)) (Woven · (rootPassages node)) := by
  match node with
  | .text data => exact yields_pure (woven_literal data)
  | .expression given _ =>
    simp only [Node.reworded, clientRoot, dynamic_reworded_value]
    exact yields_pure (woven_bound given)
  | .component component attrs slot =>
    simp only [Node.reworded, clientRoot]
    refine (yields_slot slot).bind ?_
    rintro _ ⟨_, rfl, given⟩
    exact yields_componentCall component.path attrs given
  | .element element attrs children =>
    simp only [Node.reworded, clientRoot_element]
    have made := draws_element [] element attrs (draws_children children (element.childCount == 1) [] {}) _ _ sketch_start
    refine Yields.bind (made.bind fun value holds => yields_pure holds.2) fun program sketch => yields_render sketch _

theorem draws_children (nodes : List Node) (sole : Bool) (parent : Address) (cursor : ChildCursor) :
    Draws (fun wording => clientChildren sole parent cursor (rewordedAll wording nodes)) (childrenPassages nodes) fun _ => True := by
  match nodes with
  | [] => exact draws_pure trivial
  | node :: rest =>
    simp only [rewordedAll, clientChildren]
    refine (draws_child node sole parent cursor).bind ?_
    rintro _ ⟨next, rfl⟩
    exact draws_children rest sole parent next

theorem draws_child (node : Node) (sole : Bool) (parent : Address) (cursor : ChildCursor) :
    Draws (fun wording => clientChild sole parent cursor (node.reworded wording)) (childPassages node) Steady := by
  match node with
  | .text data => exact draws_text cursor data
  | .expression given _ =>
    simp only [Node.reworded, clientChild, dynamic_reworded_value, childPassages]
    by_cases dynamic : given.dynamic = true
    · simp only [dynamic, if_true]
      exact draws_region sole parent cursor (woven_emit given)
    · simp only [dynamic]
      exact draws_text cursor given.shown
  | .component component attrs slot =>
    simp only [Node.reworded, clientChild]
    refine ((draws_lift (yields_slot slot)).bind (q := childPassages (.component component attrs slot)) ?_).perm (by simp)
    rintro _ ⟨_, rfl, given⟩
    refine ((draws_lift (yields_componentCall component.path attrs given)).bind
      (q := childPassages (.component component attrs slot)) ?_).perm (by simp)
    exact fun call woven => draws_region sole parent cursor woven
  | .element element attrs children =>
    have inner := draws_children children (element.childCount == 1) (cursor.index :: parent) {}
    have body := draws_element (cursor.index :: parent) element attrs inner
    have next : Draws (fun _ => pure (⟨cursor.index + 1, false⟩ : ChildCursor)) [] Steady := draws_pure ⟨_, rfl⟩
    have whole : Draws (fun wording => do
        clientElement (cursor.index :: parent) element (attrs.map (reworded wording))
          (clientChildren (element.childCount == 1) (cursor.index :: parent) {} (rewordedAll wording children))
        pure (⟨cursor.index + 1, false⟩ : ChildCursor)) (childPassages (.element element attrs children)) Steady := by
      refine (body.bind (q := []) fun _ _ => ?_).perm (by simp [childPassages])
      exact next
    simp only [Node.reworded, clientChild]
    split
    · refine ((draws_any (draws_reach "__el" (by decide) _)).bind (q := childPassages (.element element attrs children)) ?_).perm
        (by simp)
      exact fun _ _ => whole
    · exact whole

end

end LiveMarkup.Codegen
