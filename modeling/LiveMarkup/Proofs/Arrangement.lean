import LiveMarkup.Document.Arrange
import Mathlib.Data.List.Nodup

/-!
Parents and their lists of children under the operations that move nodes. Every operation is described by what it
does to `children`, `parent?` and `kind`; `Lists` says that a parent and its children know each other.
-/

namespace LiveMarkup.Document
open List Document

variable {doc : Document η π} {n parent : NodeId} {node : Node η π}

deriving instance ReflBEq, LawfulBEq for Kind

variable {η π : Type} {m : NodeId}

theorem filter_ne_of_not_mem {nodes : List NodeId} (absent : n ∉ nodes) : nodes.filter (· != n) = nodes :=
  filter_eq_self.mpr fun m mem => by simpa using fun same : m = n => absent (same ▸ mem)

/-- A node of the document has these children, each of them once, and every child names it as its parent. -/
structure Lists (doc : Document η π) (parent : NodeId) (nodes : List NodeId) : Prop where
  present : (doc.node? parent).isSome
  children_eq : doc.children parent = nodes
  once : nodes.Nodup
  parents : ∀ n ∈ nodes, doc.parent? n = some parent

theorem kind_of_node? (found : doc.node? n = some node) : doc.kind n = node.kind := by
  simp [kind, found]

theorem children_of_node? (found : doc.node? n = some node) : doc.children n = node.children := by
  simp [children, found]

theorem parent?_of_node? (found : doc.node? n = some node) : doc.parent? n = node.parent := by
  simp [parent?, found]

@[simp]
theorem present_modifyNode (doc : Document η π) (n m : NodeId) (f : Node η π → Node η π) :
    ((doc.modifyNode n f).node? m).isSome = (doc.node? m).isSome := by
  by_cases same : n = m <;> simp [same]

@[simp]
theorem present_setParent (doc : Document η π) (n m : NodeId) (parent : Option NodeId) :
    ((doc.setParent n parent).node? m).isSome = (doc.node? m).isSome :=
  present_modifyNode doc n m _

@[simp]
theorem present_setChildren (doc : Document η π) (n m : NodeId) (nodes : List NodeId) :
    ((doc.setChildren n nodes).node? m).isSome = (doc.node? m).isSome :=
  present_modifyNode doc n m _

@[simp]
theorem kind_setParent (doc : Document η π) (n m : NodeId) (parent : Option NodeId) :
    (doc.setParent n parent).kind m = doc.kind m := by
  by_cases same : n = m <;> cases found : doc.node? m <;> simp [kind, setParent, same, found]

@[simp]
theorem kind_setChildren (doc : Document η π) (n m : NodeId) (nodes : List NodeId) :
    (doc.setChildren n nodes).kind m = doc.kind m := by
  by_cases same : n = m <;> cases found : doc.node? m <;> simp [kind, setChildren, same, found]

theorem present_of_parent? (stands : doc.parent? n = some parent) : (doc.node? n).isSome := by
  cases found : doc.node? n with
  | none => simp [parent?, found] at stands
  | some => rfl

theorem present_of_not_fragment (solid : doc.isFragment n = false) : (doc.node? n).isSome := by
  cases found : doc.node? n with
  | none => simp [isFragment, kind, found] at solid
  | some => rfl

@[simp]
theorem kind_detach (doc : Document η π) (n m : NodeId) : (doc.detach n).kind m = doc.kind m := by
  unfold detach
  split <;> simp

@[simp]
theorem present_detach (doc : Document η π) (n m : NodeId) :
    ((doc.detach n).node? m).isSome = (doc.node? m).isSome := by
  unfold detach
  split <;> simp

theorem parent?_detach (doc : Document η π) (n m : NodeId) :
    (doc.detach n).parent? m = if m = n then none else doc.parent? m := by
  unfold detach
  split
  · rename_i free
    by_cases same : m = n
    · subst same
      simp [free]
    · simp [same]
  · by_cases same : m = n
    · subst same
      simp
    · have apart : n ≠ m := fun h => same h.symm
      simp [same, apart]

theorem children_detach (doc : Document η π) (n m : NodeId) : (doc.detach n).children m =
      if doc.parent? n = some m then (doc.children m).filter (· != n) else doc.children m := by
  unfold detach
  split
  · rename_i free
    simp [free]
  · rename_i parent stands
    by_cases same : parent = m
    · subst same
      rw [children_setParent, children_setChildren]
      cases found : doc.node? parent <;> simp [stands, children, found]
    · simp [stands, same]

@[simp]
theorem kind_remove (doc : Document η π) (n m : NodeId) : (doc.remove n).kind m = doc.kind m := by
  unfold remove
  split
  · rfl
  · exact kind_detach doc n m

@[simp]
theorem present_remove (doc : Document η π) (n m : NodeId) :
    ((doc.remove n).node? m).isSome = (doc.node? m).isSome := by
  unfold remove
  split
  · rfl
  · exact present_detach doc n m

theorem parent?_remove (doc : Document η π) (n m : NodeId) :
    (doc.remove n).parent? m = if m = n then none else doc.parent? m := by
  unfold remove
  split
  · rename_i free
    by_cases same : m = n
    · simp [same, free]
    · simp [same]
  · exact parent?_detach doc n m

theorem children_remove (doc : Document η π) (n m : NodeId) : (doc.remove n).children m =
      if doc.parent? n = some m then (doc.children m).filter (· != n) else doc.children m := by
  unfold remove
  split
  · rename_i free
    simp [free]
  · exact children_detach doc n m

section Place

variable {doc : Document η π}

def markFor (doc : Document η π) (n : NodeId) (mark : Option NodeId) : Option NodeId :=
  if mark = some n then doc.next? n else mark

theorem node?_place (doc : Document η π) (parent n m : NodeId) (mark : Option NodeId) :
    (doc.place parent n mark).node? m = (((doc.detach n).setChildren parent
      (insertInto n (markFor doc n mark) ((doc.detach n).children parent))).setParent n (some parent)).node? m := by
  simp only [place, markFor, node?]

@[simp]
theorem kind_place (doc : Document η π) (parent n m : NodeId) (mark : Option NodeId) :
    (doc.place parent n mark).kind m = doc.kind m := by
  rw [kind, node?_place, ← kind]
  simp

@[simp]
theorem present_place (doc : Document η π) (parent n m : NodeId) (mark : Option NodeId) :
    ((doc.place parent n mark).node? m).isSome = (doc.node? m).isSome := by
  rw [node?_place]
  simp

theorem parent?_place {n : NodeId} (there : (doc.node? n).isSome) (parent m : NodeId) (mark : Option NodeId) :
    (doc.place parent n mark).parent? m = if m = n then some parent else doc.parent? m := by
  rw [parent?, node?_place, ← parent?, parent?_setParent, parent?_setChildren, parent?_detach]
  by_cases same : m = n
  · subst same
    have kept : (((doc.detach m).setChildren parent
        (insertInto m (markFor doc m mark) ((doc.detach m).children parent))).node? m).isSome := by
      simpa using there
    obtain ⟨_, found⟩ := Option.isSome_iff_exists.mp kept
    rw [found]
    simp
  · have apart : n ≠ m := fun h => same h.symm
    simp [same, apart]

theorem children_place {parent : NodeId} (there : (doc.node? parent).isSome) (n m : NodeId) (mark : Option NodeId) :
    (doc.place parent n mark).children m =
      if m = parent then insertInto n (markFor doc n mark) ((doc.detach n).children parent)
      else (doc.detach n).children m := by
  rw [children, node?_place, ← children, children_setParent, children_setChildren]
  by_cases same : m = parent
  · subst same
    have kept : ((doc.detach n).node? m).isSome := by simpa using there
    obtain ⟨_, found⟩ := Option.isSome_iff_exists.mp kept
    simp [found]
  · have apart : parent ≠ m := fun h => same h.symm
    simp [same, apart]

theorem insertBefore_of_solid {n : NodeId} (solid : doc.isFragment n = false) (parent : NodeId) (mark : Option NodeId) :
    doc.insertBefore parent n mark = doc.place parent n mark := by
  simp [insertBefore, solid]

end Place

theorem neighbours_go (n : NodeId) (before : Option NodeId) (current : NodeId) (rest left right : List NodeId)
    (fresh : n ∉ left) (split : current :: rest = left ++ n :: right) :
    neighbours.go n before current rest = some ((left.getLast?).or before, right.head?) := by
  induction rest generalizing before current left with
  | nil =>
    cases left with
    | nil =>
      obtain ⟨rfl, rfl⟩ := cons.inj split
      simp [neighbours.go]
    | cons => simp at split
  | cons next _ ih =>
    cases left with
    | nil =>
      obtain ⟨rfl, rfl⟩ := cons.inj split
      simp [neighbours.go]
    | cons _ left =>
      obtain ⟨rfl, tail⟩ := cons.inj split
      have apart : current ≠ n := fun h => fresh (by simp [h])
      rw [neighbours.go, if_neg apart, ih (some current) next left (fun h => fresh (by simp [h])) tail]
      cases left with
      | nil => simp
      | cons second left =>
        rw [getLast?_cons_cons, getLast?_eq_some_getLast (cons_ne_nil second left)]
        rfl

theorem neighbours_append (n : NodeId) (left right : List NodeId) (fresh : n ∉ left) :
    neighbours n (left ++ n :: right) = some (left.getLast?, right.head?) := by
  cases whole : left ++ n :: right with
  | nil => simp at whole
  | cons first rest => simpa [neighbours] using neighbours_go n none first rest left right fresh whole.symm

theorem insertInto_append (n : NodeId) (left right : List NodeId) (fresh : ∀ m ∈ right.head?, m ∉ left) :
    insertInto n right.head? (left ++ right) = left ++ n :: right := by
  induction left with
  | nil => cases right <;> simp [insertInto]
  | cons first left ih =>
    have apart : right.head? ≠ some first := fun h => fresh first h (by simp)
    have later : ∀ m ∈ right.head?, m ∉ left := fun m member mem => fresh m member (by simp [mem])
    simp [insertInto, apart, ih later]

namespace Lists

variable {doc : Document η π} {parent : NodeId} {left right nodes : List NodeId}

theorem siblings? {n : NodeId} (lists : doc.Lists parent (left ++ n :: right)) :
    doc.siblings? n = some (left.getLast?, right.head?) := by
  have stands := lists.parents n (by simp)
  have fresh : n ∉ left := fun mem =>
    (nodup_append.mp lists.once).2.2 n mem n (by simp) rfl
  simp [Document.siblings?, stands, lists.children_eq, neighbours_append n left right fresh]

theorem next? {n : NodeId} (lists : doc.Lists parent (left ++ n :: right)) : doc.next? n = right.head? := by
  simp [Document.next?, lists.siblings?]

theorem children_detach (lists : doc.Lists parent nodes) (n : NodeId) :
    (doc.detach n).children parent = nodes.filter (· != n) := by
  rw [Document.children_detach, lists.children_eq]
  split
  · rfl
  · rename_i elsewhere
    have absent : n ∉ nodes := fun mem => elsewhere (lists.parents n mem)
    exact (filter_ne_of_not_mem absent).symm

theorem remove (lists : doc.Lists parent nodes) (n : NodeId) : (doc.remove n).Lists parent (nodes.filter (· != n)) where
  present := by simpa using lists.present
  children_eq := by
    rw [children_remove, ← Document.children_detach]
    exact lists.children_detach n
  once := lists.once.filter _
  parents m mem := by
    obtain ⟨mem, apart⟩ := mem_filter.mp mem
    rw [parent?_remove, if_neg (by simpa using apart)]
    exact lists.parents m mem

theorem markFor (lists : doc.Lists parent (left ++ right)) (n : NodeId) :
    doc.markFor n right.head? = (right.filter (· != n)).head? := by
  unfold Document.markFor
  cases right with
  | nil => simp
  | cons first rest =>
    by_cases same : first = n
    · subst same
      have alone : first ∉ rest := (nodup_cons.mp (nodup_append.mp lists.once).2.1).1
      simp [lists.next?, filter_ne_of_not_mem alone]
    · simp [same]

theorem insertBefore {n : NodeId} (lists : doc.Lists parent (left ++ right)) (solid : doc.isFragment n = false) :
    (doc.insertBefore parent n right.head?).Lists parent (left.filter (· != n) ++ n :: right.filter (· != n)) := by
  rw [insertBefore_of_solid solid]
  have once : (left.filter (· != n) ++ right.filter (· != n)).Nodup := by
    rw [← filter_append]
    exact lists.once.filter _
  have outside : n ∉ left.filter (· != n) ++ right.filter (· != n) := by simp
  have fresh : ∀ m ∈ (right.filter (· != n)).head?, m ∉ left.filter (· != n) := by
    intro m first mem
    exact (nodup_append.mp once).2.2 m mem m (mem_of_mem_head? first) rfl
  refine ⟨by simpa using lists.present, ?_, ?_, ?_⟩
  · rw [children_place lists.present, if_pos rfl, lists.markFor n, lists.children_detach n, filter_append]
    exact insertInto_append n _ _ fresh
  · exact nodup_middle.mpr (nodup_cons.mpr ⟨outside, once⟩)
  · intro m mem
    rw [parent?_place (present_of_not_fragment solid)]
    split
    · rfl
    · rename_i apart
      apply lists.parents m
      simp only [mem_append, mem_cons, mem_filter] at mem ⊢
      tauto

end Lists

theorem kind_insertBefore (solid : doc.isFragment n = false) (parent m : NodeId) (mark : Option NodeId) :
    (doc.insertBefore parent n mark).kind m = doc.kind m := by
  rw [insertBefore_of_solid solid, kind_place]

theorem isFragment_insertBefore (solid : doc.isFragment n = false) (parent m : NodeId) (mark : Option NodeId) :
    (doc.insertBefore parent n mark).isFragment m = doc.isFragment m := by
  simp only [isFragment, kind_insertBefore solid]

theorem Lists.exchange {a b : NodeId} {left middle right : List NodeId}
    (lists : doc.Lists parent (left ++ a :: (middle ++ b :: right))) (solidA : doc.isFragment a = false)
    (solidB : doc.isFragment b = false) :
    ((doc.insertBefore parent b (doc.next? a)).insertBefore parent a (doc.next? b)).Lists parent
      (left ++ b :: (middle ++ a :: right)) := by
  have nextA : doc.next? a = (middle ++ b :: right).head? := lists.next?
  have aroundB : doc.Lists parent ((left ++ a :: middle) ++ b :: right) := by simpa using lists
  have nextB : doc.next? b = right.head? := aroundB.next?
  have once := lists.once
  simp only [nodup_append, nodup_cons, mem_append, mem_cons] at once
  have first : (doc.insertBefore parent b (doc.next? a)).Lists parent (left ++ a :: b :: middle ++ right) := by
    rw [nextA]
    have behindA : doc.Lists parent ((left ++ [a]) ++ (middle ++ b :: right)) := by simpa using lists
    have moved := behindA.insertBefore solidB
    have before : (left ++ [a]).filter (· != b) = left ++ [a] := filter_ne_of_not_mem (by grind)
    have between : middle.filter (· != b) = middle := filter_ne_of_not_mem (by grind)
    have after : right.filter (· != b) = right := filter_ne_of_not_mem (by grind)
    simpa [before, between, after] using moved
  rw [nextB]
  have moved := first.insertBefore (n := a) (by rwa [isFragment_insertBefore solidB])
  have before : left.filter (· != a) = left := filter_ne_of_not_mem (by grind)
  have between : middle.filter (· != a) = middle := filter_ne_of_not_mem (by grind)
  have after : right.filter (· != a) = right := filter_ne_of_not_mem (by grind)
  have apart : b ≠ a := by grind
  simpa [before, between, after, apart] using moved

theorem parent?_insertBefore (solid : doc.isFragment n = false) (parent m : NodeId) (mark : Option NodeId) :
    (doc.insertBefore parent n mark).parent? m = if m = n then some parent else doc.parent? m := by
  rw [insertBefore_of_solid solid, parent?_place (present_of_not_fragment solid)]

theorem children_insertBefore_of_ne (solid : doc.isFragment n = false) (there : (doc.node? parent).isSome)
    (apart : m ≠ parent) (mark : Option NodeId) :
    (doc.insertBefore parent n mark).children m =
      if doc.parent? n = some m then (doc.children m).filter (· != n) else doc.children m := by
  rw [insertBefore_of_solid solid, children_place there, if_neg apart, children_detach]

section RemoveAll

variable {doc : Document η π} {parent : NodeId}

theorem Lists.removeAll {nodes : List NodeId} (lists : doc.Lists parent nodes) (gone : List NodeId) :
    (doc.removeAll gone).Lists parent (nodes.filter (· ∉ gone)) := by
  induction gone generalizing doc nodes with
  | nil => simpa [removeAll] using lists
  | cons n gone ih =>
    have later := ih (lists.remove n)
    have order : (nodes.filter (· != n)).filter (· ∉ gone) = nodes.filter (· ∉ n :: gone) := by
      rw [filter_filter]
      congr 1
      funext m
      by_cases same : m = n <;> simp [same]
    rw [order] at later
    exact later

theorem parent?_removeAll (gone : List NodeId) (m : NodeId) :
    (doc.removeAll gone).parent? m = if m ∈ gone then none else doc.parent? m := by
  induction gone generalizing doc with
  | nil => simp [removeAll]
  | cons n gone ih =>
    rw [show doc.removeAll (n :: gone) = (doc.remove n).removeAll gone from rfl, ih, parent?_remove]
    by_cases same : m = n <;> simp [same]

theorem children_removeAll {gone : List NodeId}
    (free : ∀ n ∈ gone, doc.parent? n = none ∨ doc.parent? n = some parent) (apart : m ≠ parent) :
    (doc.removeAll gone).children m = doc.children m := by
  induction gone generalizing doc with
  | nil => rfl
  | cons n _ ih =>
    have first : (doc.remove n).children m = doc.children m := by
      rw [children_remove, if_neg]
      rcases free n (by simp) with none | here
      · simp [none]
      · simpa [here] using fun same => apart same.symm
    refine (ih fun x mem => ?_).trans first
    rw [parent?_remove]
    split
    · exact .inl rfl
    · exact free x (mem_cons_of_mem n mem)

end RemoveAll

end LiveMarkup.Document
