import LiveMarkup.Codegen.Compile
import LiveMarkup.Proofs.Linearization

/-!
Blueprints built as sequences. The items of a template are pushed one behind the other, and what is found to need a live
reference is noted at the element that it stands in, which was pushed before. The outcome is the blueprint in linear form,
and where no blueprint is built the same fault is found.
-/

namespace LiveMarkup.Blueprint
open Template (CompileError)
open List

abbrev Pushing := StateT (List Item) (Except CompileError)

def push (item : Item) : Pushing Unit := modify (· ++ [item])

def Item.marked : Item → Item
  | .element head hasChildren => .element { head with dynamic := true } hasChildren
  | item => item

/-- Notes at an element that it needs a live reference; a root has no element around it. -/
def mark (owner : Option Nat) (needed : Bool) (items : List Item) : List Item :=
  match owner, needed with
  | some index, true => items.modify index Item.marked
  | _, _ => items

/-- The attributes of a component are noted nowhere. -/
def pushAttribute (classify : Template.Attribute → Except CompileError Attribute) (owner : Option Nat)
    (written : Template.Attribute) : Pushing Unit := do
  let entry ← classify written
  modify (mark owner entry.dynamic)
  push (.entry entry)

/-- A sequence of its own, which says itself whether it is shown as a list. -/
def sequence (trees : List Template.Tree) (inside : Pushing Unit) : Except CompileError (List Item) := do
  let single := match trees with
    | [.fragment ..] => true
    | _ => false
  let ((), items) ← inside.run []
  return inFragment ((flatten trees).length != 1 || single) items

def slotOf (flat : List Template.Tree) (inside : Except CompileError (List Item)) : Except CompileError LinearSlot :=
  match flat with
  | [] => .ok .none
  | [.text data _] => .ok (.text data)
  | [.expression code span] => do
    let value ← analyze code span
    match value.constant with
    | some (.text text) => .ok (.text text)
    | _ => .ok (.expression value)
  | _ => return .nested (← inside)

def pushComponent (component : Component) (slot : LinearSlot) (attributes : List Template.Attribute) : Pushing Unit := do
  push (.component component slot)
  attributes.forM (pushAttribute componentAttribute none)
  push .attributesEnd
  push .elementEnd

/-- An element, of which is only known whether it needs a live reference once all is pushed that is in it. -/
def pushElement (element : Element) (hasChildren : Bool) (attributes : List Template.Attribute)
    (children : Option Nat → Pushing Unit) : Pushing Unit := do
  let index := (← get).length
  push (.element element hasChildren)
  attributes.forM (pushAttribute elementAttribute (some index))
  push .attributesEnd
  if hasChildren then
    push .childrenStart
    children (some index)
    push .childrenEnd
  push .elementEnd

mutual

def pushTree (owner : Option Nat) (inSvg : Bool) : Template.Tree → Pushing Unit
  | .text data _ => push (.text data)
  | .expression code span => do
    let given ← analyze code span
    modify (mark owner given.dynamic)
    push (.expression given span)
  | .fragment children _ => pushTrees owner inSvg children
  | .element tag attributes children _ span => do
    let flat := flatten children
    let childCount := flat.length
    let elementCount := (flat.filter isElement).length
    if Markup.Element.isComponent tag then
      modify (mark owner true)
      let slot ← slotOf flat (sequence children (pushTrees none false children))
      pushComponent ⟨componentPath tag, childCount, elementCount, span⟩ slot attributes
    else
      let isSvg := inSvg || Markup.Element.isSvgName tag
      let isVoid := !isSvg && Markup.Element.isVoid tag
      if isVoid && childCount != 0 then throw (.ofSpan (.voidChildren tag) span)
      pushElement ⟨tag, isVoid, isSvg, childCount, elementCount, span, false⟩ (!flat.isEmpty) attributes fun owner =>
        pushTrees owner (isSvg && tag != "foreignObject") children

def pushTrees (owner : Option Nat) (inSvg : Bool) : List Template.Tree → Pushing Unit
  | [] => return
  | tree :: rest => do
    pushTree owner inSvg tree
    pushTrees owner inSvg rest

end

def pushed (roots : List Template.Tree) : Except CompileError (List Item) := sequence roots (pushTrees none false roots)

variable {owner : Option Nat} {items : List Item} {trees : List Template.Tree}

@[simp] theorem mark_none (needed : Bool) : mark none needed items = items := rfl

@[simp] theorem mark_false : mark owner false items = items := by
  cases owner <;> rfl

theorem mark_mark (first second : Bool) : mark owner second (mark owner first items) = mark owner (first || second) items := by
  cases owner with
  | none => rfl
  | some index =>
    cases first <;> cases second <;> try rfl
    refine (modify_modify_eq ..).trans (congrArg (items.modify index) (funext fun item => ?_))
    cases item <;> rfl

theorem length_mark (needed : Bool) : (mark owner needed items).length = items.length := by
  unfold mark
  split
  · exact length_modify ..
  · rfl

theorem mark_append (within : ∀ index ∈ owner, index < items.length) (needed : Bool) (behind : List Item) :
    mark owner needed (items ++ behind) = mark owner needed items ++ behind := by
  unfold mark
  split
  · rename_i index
    have bound := within index rfl
    rw [modify_eq_take_drop, modify_eq_take_drop, take_append_of_le_length (Nat.le_of_lt bound),
      drop_append_of_le_length (Nat.le_of_lt bound), drop_eq_getElem_cons bound, append_assoc]
    rfl
  · rfl

/-- The element that was pushed last but for what is in it. -/
theorem mark_pushed (head : Element) (hasChildren needed : Bool) (behind : List Item) :
    mark (some items.length) needed (items ++ .element head hasChildren :: behind) =
      items ++ .element { head with dynamic := head.dynamic || needed } hasChildren :: behind := by
  cases needed with
  | false => simp [mark]
  | true => simp [mark, Item.marked, modify_eq_set_getElem?]

theorem nodes_of_flatten_nil (inSvg : Bool) {trees : List Template.Tree} (flat : flatten trees = []) : nodes inSvg trees = .ok [] := by
  match trees with
  | [] => rfl
  | .fragment children _ :: rest =>
    obtain ⟨first, last⟩ := append_eq_nil_iff.mp flat
    rw [nodes, node, nodes_of_flatten_nil inSvg first, nodes_of_flatten_nil inSvg last]
    rfl
  | .text .. :: _ | .expression .. :: _ | .element .. :: _ => simp [flatten, splice] at flat

theorem within_marked (within : ∀ index ∈ owner, index < items.length) (needed : Bool) (behind : List Item) :
    ∀ index ∈ owner, index < (mark owner needed items ++ behind).length := by
  rw [length_append, length_mark]
  exact fun index mem => Nat.lt_add_right _ (within index mem)

/-- What is pushed in two steps. -/
theorem mark_append_mark (within : ∀ index ∈ owner, index < items.length) (first second : Bool) (front behind : List Item) :
    mark owner second (mark owner first items ++ front) ++ behind = mark owner (first || second) items ++ (front ++ behind) := by
  rw [mark_append (by rwa [length_mark]), mark_mark, append_assoc]

theorem ok_bind {α β ε : Type} (a : α) (f : α → Except ε β) : (Except.ok a >>= f) = f a := rfl

theorem run_pushAttributes (classify : Template.Attribute → Except CompileError Attribute) (written : List Template.Attribute)
    (within : ∀ index ∈ owner, index < items.length) : (written.forM (pushAttribute classify owner)).run items =
      (fun entries : List Attribute =>
        ((), mark owner (entries.any Attribute.dynamic) items ++ entries.map .entry)) <$> written.mapM classify := by
  induction written generalizing items with
  | nil => simp [mark]
  | cons first rest ih =>
    rw [forM_eq_forM, forM_cons, mapM_cons]
    cases classified : classify first with
    | error =>
      simp only [pushAttribute, classified]
      rfl
    | ok entry =>
      have next := ih (within_marked within entry.dynamic [.entry entry])
      rw [forM_eq_forM] at next
      simp [pushAttribute, classified, push, next, mark_append_mark within, ok_bind]

def after (owner : Option Nat) (items : List Item) (made : List Node) : Unit × List Item :=
  ((), mark owner (made.any Node.dynamic) items ++ linears made)

theorem linears_append (front behind : List Node) : linears (front ++ behind) = linears front ++ linears behind := by
  induction front with
  | nil => rfl
  | cons node _ ih => rw [cons_append, linears, linears, ih, append_assoc]

theorem run_sequence {inside : Pushing Unit} (ran : inside.run [] = after none [] <$> nodes false trees) :
    sequence trees inside = linear <$> build trees := by
  unfold build sequence
  rw [ran]
  cases nodes false trees with
  | error => rfl
  | ok made => rfl

theorem run_pushComponent (component : Component) (slot : Slot) (written : List Template.Attribute) :
    (pushComponent component slot.linear written).run (mark owner true items) =
      after owner items <$> (do return [.component component (← written.mapM componentAttribute) slot]) := by
  have within : ∀ index ∈ (none : Option Nat), index < (mark owner true items ++ [Item.component component slot.linear]).length :=
    nofun
  have ran := run_pushAttributes componentAttribute written within
  simp only [pushComponent, push, StateT.run_bind, StateT.run_modify, pure_bind, ran]
  cases written.mapM componentAttribute with
  | error => rfl
  | ok entries =>
    rw [Except.map_ok, ok_bind, ok_bind]
    simp [after, linears, Node.linear, Node.dynamic]

theorem run_pushElement (element : Element) (still : element.dynamic = false) (inSvg : Bool) {hasChildren : Bool}
    (full : hasChildren = !(flatten trees).isEmpty) (written : List Template.Attribute) (items : List Item)
    {children : Option Nat → Pushing Unit} (inner : ∀ between : List Item,
      (∀ index ∈ some items.length, index < between.length) →
        (children (some items.length)).run between = after (some items.length) between <$> nodes inSvg trees) :
    (pushElement element hasChildren written children).run items = after owner items <$> (do
      let entries ← written.mapM elementAttribute
      let made ← nodes inSvg trees
      return [.element { element with dynamic := entries.any Attribute.dynamic || made.any Node.dynamic } entries made]) := by
  have within : ∀ index ∈ some items.length, index < (items ++ [Item.element element hasChildren]).length := by simp
  have entered := run_pushAttributes elementAttribute written within
  simp only [pushElement, push, StateT.run_bind, StateT.run_modify, StateT.run_get, pure_bind, entered]
  cases written.mapM elementAttribute with
  | error => rfl
  | ok entries =>
    cases hasChildren with
    | false =>
      have flat : flatten trees = [] := by simpa using full
      simp [nodes_of_flatten_nil inSvg flat, mark_pushed, after, linears, Node.linear, Node.dynamic, still]
      rfl
    | true =>
      have next := inner _ (within_marked within (entries.any Attribute.dynamic)
        (entries.map .entry ++ [.attributesEnd, .childrenStart]))
      simp only [Except.map_ok, ok_bind, if_true, StateT.run_bind, StateT.run_modify, pure_bind, append_assoc, cons_append,
        nil_append, next]
      cases built : nodes inSvg trees with
      | error => rfl
      | ok made =>
        have solid : made ≠ [] := by
          rw [← length_pos_iff, (nodesOf_nodes built).length_eq, length_pos_iff]
          simpa using full
        simp [after, mark_pushed, Node.dynamic, linears, Node.linear, still, solid]

mutual

theorem run_pushTree (owner : Option Nat) (inSvg : Bool) (tree : Template.Tree) (items : List Item)
    (within : ∀ index ∈ owner, index < items.length) :
    (pushTree owner inSvg tree).run items = after owner items <$> node inSvg tree := by
  match tree with
  | .text data span =>
    simp [pushTree, node, push, after, linears, Node.linear, Node.dynamic]
    rfl
  | .expression code span =>
    rw [pushTree, node]
    cases looked : analyze code span with
    | error => rfl
    | ok given => simp [push, after, linears, Node.linear, Node.dynamic]
  | .fragment children _ =>
    rw [pushTree, node]
    exact run_pushTrees owner inSvg children items within
  | .element tag attributes children _ span =>
    unfold pushTree node
    cases named : Markup.Element.isComponent tag with
    | true =>
      have inner := run_sequence (run_pushTrees none false children [] nofun)
      simp only [inner, if_true, StateT.run_bind, StateT.run_modify, pure_bind]
      split
      · rename_i flat
        simp only [slotOf, flat]
        exact run_pushComponent _ .none attributes
      · rename_i flat
        simp only [slotOf, flat]
        exact run_pushComponent _ (.text _) attributes
      · rename_i code span flat
        simp only [slotOf, flat]
        cases analyze code span with
        | error => rfl
        | ok given =>
          simp only [ok_bind]
          cases given.constant with
          | none => exact run_pushComponent _ (.expression given) attributes
          | some constant =>
            cases constant with
            | text => exact run_pushComponent _ (.text _) attributes
            | _ => exact run_pushComponent _ (.expression given) attributes
      · rename_i none text expression
        rw [slotOf.eq_4 _ _ none text expression]
        unfold build
        cases nodes false children with
        | error => rfl
        | ok roots => exact run_pushComponent _ (.nested _ roots) attributes
    | false =>
      simp only [Bool.false_eq_true, if_false]
      split
      · rfl
      · exact run_pushElement _ rfl _ rfl attributes items (run_pushTrees (some items.length) _ children)

theorem run_pushTrees (owner : Option Nat) (inSvg : Bool) (trees : List Template.Tree) (items : List Item)
    (within : ∀ index ∈ owner, index < items.length) :
    (pushTrees owner inSvg trees).run items = after owner items <$> nodes inSvg trees := by
  match trees with
  | [] =>
    simp [pushTrees, nodes, after, linears]
    rfl
  | tree :: rest =>
    rw [pushTrees, nodes, StateT.run_bind, run_pushTree owner inSvg tree items within]
    cases node inSvg tree with
    | error => rfl
    | ok first =>
      have next := run_pushTrees owner inSvg rest _ (within_marked within (first.any Node.dynamic) (linears first))
      rw [Except.map_ok, ok_bind]
      refine next.trans ?_
      cases nodes inSvg rest with
      | error => rfl
      | ok others => simp [ok_bind, after, mark_append_mark within, linears_append]

end

theorem pushed_eq (roots : List Template.Tree) : pushed roots = linear <$> build roots :=
  run_sequence (run_pushTrees none false roots [] nofun)

/-- The code of a template is generated of what its sequence says, read back. -/
theorem compileInto_eq_pushed (context : Codegen.Context) (source : String) :
    Codegen.compileInto context source = (do
      let items ← pushed (← Template.parse source)
      return (Codegen.generate (rebuild items)).run context) := by
  unfold Codegen.compileInto
  cases Template.parse source with
  | error => rfl
  | ok roots =>
    rw [ok_bind, ok_bind, pushed_eq]
    cases build roots with
    | error => rfl
    | ok blueprint =>
      rw [Except.map_ok, ok_bind, ok_bind, rebuild_linear]

end LiveMarkup.Blueprint
