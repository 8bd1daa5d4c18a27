import LiveMarkup.Document.Content
import LiveMarkup.Proofs.Arrangement
import Mathlib.Data.List.Perm.Subperm
import Mathlib.Order.Nat

/-!
What is stored of the nodes of a document after nodes were moved, made from trees or copied. Moving nodes about changes
nothing but parents and children; making and copying nodes leaves the nodes that are there as they are.
-/

namespace LiveMarkup.Document
open List
open Markup (Tree)

variable {η π : Type} {node : Node η π}

section Moving

variable {next doc : Document η π} {m : NodeId}

structure Rearranged (doc next : Document η π) : Prop where
  size_eq : next.nodes.size = doc.nodes.size
  node?_eq : ∀ m, next.node? m =
    (doc.node? m).map fun node => { node with parent := next.parent? m, children := next.children m }

theorem Rearranged.refl (doc : Document η π) : Rearranged doc doc := by
  refine ⟨rfl, fun m => ?_⟩
  cases found : doc.node? m <;> simp [parent?, children, found]

theorem Rearranged.kind_eq (rearranged : Rearranged doc next) (n : NodeId) : next.kind n = doc.kind n := by
  rw [kind, rearranged.node?_eq, Option.map_map]
  rfl

theorem Rearranged.trans {first second third : Document η π} (one : Rearranged first second)
    (two : Rearranged second third) : Rearranged first third := by
  refine ⟨two.size_eq.trans one.size_eq, fun m => ?_⟩
  rw [two.node?_eq, one.node?_eq, Option.map_map]
  rfl

theorem Rearranged.node? (rearranged : Rearranged doc next) (parent : next.parent? m = doc.parent? m)
    (children : next.children m = doc.children m) : next.node? m = doc.node? m := by
  rw [rearranged.node?_eq, parent, children]
  exact ((Rearranged.refl doc).node?_eq m).symm

theorem Rearranged.of_node? (rearranged : Rearranged doc next) (found : doc.node? m = some node) :
    next.node? m = some { node with parent := next.parent? m, children := next.children m } := by
  rw [rearranged.node?_eq, found, Option.map_some]

theorem Rearranged.data_eq (rearranged : Rearranged doc next) (m : NodeId) : next.data m = doc.data m := by
  rw [data, rearranged.node?_eq, Option.map_map]
  rfl

section

variable (doc)

theorem rearranged_setParent (n : NodeId) (parent : Option NodeId) : Rearranged doc (doc.setParent n parent) := by
  refine ⟨by simp [setParent, modifyNode], fun m => ?_⟩
  by_cases same : n = m <;> cases found : doc.node? m <;>
    simp [setParent, parent?, children, same, found]

theorem rearranged_setChildren (n : NodeId) (nodes : List NodeId) : Rearranged doc (doc.setChildren n nodes) := by
  refine ⟨by simp [setChildren, modifyNode], fun m => ?_⟩
  by_cases same : n = m <;> cases found : doc.node? m <;>
    simp [setChildren, parent?, children, same, found]

theorem rearranged_detach (n : NodeId) : Rearranged doc (doc.detach n) := by
  unfold detach
  split
  · exact .refl doc
  · exact (rearranged_setChildren doc _ _).trans (rearranged_setParent _ _ _)

theorem rearranged_place (parent n : NodeId) (mark : Option NodeId) : Rearranged doc (doc.place parent n mark) := by
  have moved := (rearranged_detach doc n).trans ((rearranged_setChildren _ parent
    (insertInto n (markFor doc n mark) ((doc.detach n).children parent))).trans (rearranged_setParent _ n (some parent)))
  exact ⟨moved.size_eq, moved.node?_eq⟩

theorem rearranged_placeAll (parent : NodeId) (nodes : List NodeId) (mark : Option NodeId) :
    Rearranged doc (doc.placeAll parent nodes mark) := by
  induction nodes generalizing doc with
  | nil => exact .refl doc
  | cons n nodes ih => exact (rearranged_place doc parent n mark).trans (ih (doc.place parent n mark))

theorem rearranged_insertBefore (parent n : NodeId) (mark : Option NodeId) :
    Rearranged doc (doc.insertBefore parent n mark) := by
  unfold insertBefore
  split
  · exact rearranged_placeAll doc parent _ mark
  · exact rearranged_place doc parent n mark

theorem rearranged_insertAll (parent : NodeId) (nodes : List NodeId) (mark : Option NodeId) :
    Rearranged doc (nodes.foldl (fun doc n => doc.insertBefore parent n mark) doc) := by
  induction nodes generalizing doc with
  | nil => exact .refl doc
  | cons n nodes ih => exact (rearranged_insertBefore doc parent n mark).trans (ih _)

theorem rearranged_remove (n : NodeId) : Rearranged doc (doc.remove n) := by
  unfold remove
  split
  · exact .refl doc
  · exact ⟨(rearranged_detach doc n).size_eq, (rearranged_detach doc n).node?_eq⟩

theorem rearranged_removeAll (nodes : List NodeId) : Rearranged doc (doc.removeAll nodes) := by
  induction nodes generalizing doc with
  | nil => exact .refl doc
  | cons n nodes ih => exact (rearranged_remove doc n).trans (ih (doc.remove n))

theorem kind_removeAll (nodes : List NodeId) (m : NodeId) : (doc.removeAll nodes).kind m = doc.kind m := by
  rw [kind, (rearranged_removeAll doc nodes).node?_eq, Option.map_map]
  rfl

end

end Moving

section Showing

variable {parent : Option NodeId} {doc : Document η π}
variable {nodes : List NodeId} {trees : List Tree} {tree : Tree} {n : NodeId}

mutual

/-- A node under a parent, and all that stands below it, record a tree and nothing else. All of these nodes are
`inside`, and they were made in the order of the tree. -/
def Shows (doc : Document η π) (inside : NodeId → Prop) (parent : Option NodeId) : Tree → NodeId → Prop
  | .text data, n => inside n ∧ doc.node? n = some { kind := .text, data, parent }
  | .comment data, n => inside n ∧ doc.node? n = some { kind := .comment, data, parent }
  | .element tag svg attributes children, n => inside n ∧ ∃ nodes,
    doc.node? n = some { kind := .element tag svg, attributes, parent, children := nodes } ∧
      ShowsAll doc (fun m => inside m ∧ n < m) (some n) children nodes

def ShowsAll (doc : Document η π) (inside : NodeId → Prop) (parent : Option NodeId) : List Tree → List NodeId → Prop
  | [], nodes => nodes = []
  | tree :: trees, nodes => ∃ n rest, nodes = n :: rest ∧
    Shows doc (fun m => inside m ∧ ∀ r ∈ rest, m < r) parent tree n ∧
      ShowsAll doc (fun m => inside m ∧ n < m) parent trees rest

end

mutual

theorem Shows.frame {doc next : Document η π} {mem wider : NodeId → Prop} {parent : Option NodeId} {tree : Tree}
    {n : NodeId} (shows : doc.Shows mem parent tree n) (same : ∀ m, mem m → next.node? m = doc.node? m)
    (wide : ∀ m, mem m → wider m) : next.Shows wider parent tree n := by
  match tree with
  | .text data => exact ⟨wide n shows.1, (same n shows.1).trans shows.2⟩
  | .comment data => exact ⟨wide n shows.1, (same n shows.1).trans shows.2⟩
  | .element tag svg attributes children =>
    obtain ⟨here, nodes, found, below⟩ := shows
    exact ⟨wide n here, nodes, (same n here).trans found,
      below.frame (fun m h => same m h.1) fun m h => ⟨wide m h.1, h.2⟩⟩

theorem ShowsAll.frame {doc next : Document η π} {mem wider : NodeId → Prop} {parent : Option NodeId}
    {trees : List Tree} {nodes : List NodeId} (shows : doc.ShowsAll mem parent trees nodes)
    (same : ∀ m, mem m → next.node? m = doc.node? m) (wide : ∀ m, mem m → wider m) :
    next.ShowsAll wider parent trees nodes := by
  match trees with
  | [] => exact shows
  | tree :: trees =>
    obtain ⟨n, rest, rfl, first, others⟩ := shows
    exact ⟨n, rest, rfl, first.frame (fun m h => same m h.1) fun m h => ⟨wide m h.1, h.2⟩,
      others.frame (fun m h => same m h.1) fun m h => ⟨wide m h.1, h.2⟩⟩

end

theorem Shows.inside {mem : NodeId → Prop} (shows : doc.Shows mem parent tree n) : mem n := by
  cases tree <;> exact shows.1

theorem ShowsAll.inside {doc : Document η π} {inside : NodeId → Prop} {parent : Option NodeId} {trees : List Tree}
    {nodes : List NodeId} (shows : doc.ShowsAll inside parent trees nodes) : ∀ n ∈ nodes, inside n := by
  induction trees generalizing nodes inside with
  | nil => simp [show nodes = [] from shows]
  | cons tree trees ih =>
    obtain ⟨_, _, rfl, first, others⟩ := shows
    intro m mem
    rcases mem_cons.mp mem with rfl | later
    · exact first.inside.1
    · exact (ih others m later).1

theorem ShowsAll.once {inside : NodeId → Prop} (shows : doc.ShowsAll inside parent trees nodes) : nodes.Nodup := by
  induction trees generalizing nodes inside with
  | nil => simp [show nodes = [] from shows]
  | cons tree trees ih =>
    obtain ⟨n, _, rfl, first, others⟩ := shows
    refine nodup_cons.mpr ⟨fun mem => ?_, ih others⟩
    exact lt_irrefl n (first.inside.2 n mem)

theorem ShowsAll.append {low high inside : NodeId → Prop} {more : List Tree} {others : List NodeId}
    (one : doc.ShowsAll low parent trees nodes) (two : doc.ShowsAll high parent more others)
    (order : ∀ m r, low m → high r → m < r) (first : ∀ m, low m → inside m) (second : ∀ m, high m → inside m) :
    doc.ShowsAll inside parent (trees ++ more) (nodes ++ others) := by
  induction trees generalizing nodes low inside with
  | nil =>
    obtain rfl : nodes = [] := one
    exact two.frame (fun _ _ => rfl) second
  | cons tree trees ih =>
    obtain ⟨n, rest, rfl, here, later⟩ := one
    refine ⟨n, rest ++ others, rfl, here.frame (fun _ _ => rfl) fun m h => ⟨first m h.1, fun r mem => ?_⟩, ?_⟩
    · rcases mem_append.mp mem with inner | outer
      · exact h.2 r inner
      · exact order m r h.1 (two.inside r outer)
    · refine ih later (fun m r h => order m r h.1) (fun m h => ⟨first m h.1, h.2⟩) fun m h => ⟨second m h, ?_⟩
      exact order n m here.inside.1 h

theorem Shows.reparent {next : Document η π} {mem : NodeId → Prop} (shows : doc.Shows mem parent tree n)
    (other : Option NodeId) (moved : next.node? n = (doc.node? n).map ({ · with parent := other }))
    (same : ∀ m, mem m → m ≠ n → next.node? m = doc.node? m) : next.Shows mem other tree n := by
  match tree with
  | .text data => exact ⟨shows.1, by rw [moved, shows.2]; rfl⟩
  | .comment data => exact ⟨shows.1, by rw [moved, shows.2]; rfl⟩
  | .element tag svg attributes children =>
    obtain ⟨here, nodes, found, below⟩ := shows
    refine ⟨here, nodes, by rw [moved, found]; rfl, ?_⟩
    exact below.frame (fun m h => same m h.1 h.2.ne') fun _ => id

theorem ShowsAll.reparent {doc next : Document η π} {inside : NodeId → Prop} {parent : Option NodeId}
    {trees : List Tree} {nodes : List NodeId} (shows : doc.ShowsAll inside parent trees nodes) (other : Option NodeId)
    (moved : ∀ n ∈ nodes, next.node? n = (doc.node? n).map ({ · with parent := other }))
    (same : ∀ m, inside m → m ∉ nodes → next.node? m = doc.node? m) : next.ShowsAll inside other trees nodes := by
  induction trees generalizing nodes inside with
  | nil => exact shows
  | cons tree trees ih =>
    obtain ⟨n, rest, rfl, first, others⟩ := shows
    refine ⟨n, rest, rfl, first.reparent other (moved n (by simp)) fun m h apart => same m h.1 ?_, ?_⟩
    · intro mem
      exact lt_irrefl m (h.2 m ((mem_cons.mp mem).resolve_left apart))
    · refine ih others (fun m mem => moved m (mem_cons_of_mem n mem)) fun m h apart => same m h.1 ?_
      intro mem
      rcases mem_cons.mp mem with rfl | later
      · exact lt_irrefl m h.2
      · exact apart later

end Showing

section Making

variable {doc : Document η π} {parent m : NodeId}

/-- The nodes that were there are the same, and there may be new ones. -/
structure Extended (doc next : Document η π) : Prop where
  size_le : doc.nodes.size ≤ next.nodes.size
  node?_eq : ∀ m < doc.nodes.size, next.node? m = doc.node? m

theorem node?_create (doc : Document η π) (kind : Kind) (data : String) (m : NodeId) :
    (doc.create kind data).2.node? m = if m = doc.nodes.size then some { kind, data } else doc.node? m := by
  simp only [create, node?, Array.getElem?_push]

theorem node?_ge (doc : Document η π) (beyond : doc.nodes.size ≤ m) : doc.node? m = none :=
  Array.getElem?_eq_none beyond

theorem lt_size_of_node? (found : doc.node? m = some node) : m < doc.nodes.size := by
  by_contra beyond
  simp [node?_ge doc (not_lt.mp beyond)] at found

theorem length_le_size {nodes : List NodeId} (once : nodes.Nodup) (present : ∀ n ∈ nodes, n < doc.nodes.size) :
    nodes.length ≤ doc.nodes.size := by
  have bound : nodes ⊆ range doc.nodes.size := fun n mem => mem_range.mpr (present n mem)
  simpa using (subperm_of_subset once bound).length_le

theorem node?_place_free {n : NodeId} (free : doc.parent? n = none) (apart : parent ≠ n) (m : NodeId) :
    (doc.place parent n none).node? m =
      if m = parent then (doc.node? m).map fun node => { node with children := node.children ++ [n] }
      else if m = n then (doc.node? m).map fun node => { node with parent := some parent }
      else doc.node? m := by
  have loose : doc.detach n = doc := by simp [detach, free]
  have last : ∀ nodes, insertInto n none nodes = nodes ++ [n] := by
    intro nodes
    induction nodes with
    | nil => rfl
    | cons first rest ih => simp [insertInto, ih]
  have whole : (doc.place parent n none).node? m =
      ((doc.setChildren parent (doc.children parent ++ [n])).setParent n (some parent)).node? m := by
    simp only [place, loose, last, reduceCtorEq, if_false]
    rfl
  rw [whole]
  by_cases here : m = parent
  · subst here
    cases found : doc.node? m <;> simp [setParent, setChildren, apart.symm, children, found]
  · by_cases there : m = n
    · subst there
      simp [setParent, setChildren, here, apart]
    · have one : ¬ parent = m := fun h => here h.symm
      have two : ¬ n = m := fun h => there h.symm
      simp [setParent, setChildren, here, there, one, two]

/-- New nodes that show trees have come to the end of a parent's list, and nothing else has changed. -/
structure Planted (doc next : Document η π) (parent : NodeId) (trees : List Tree) (nodes : List NodeId) : Prop where
  size_le : doc.nodes.size ≤ next.nodes.size
  parent_eq : next.node? parent = (doc.node? parent).map fun node => { node with children := node.children ++ nodes }
  others : ∀ m < doc.nodes.size, m ≠ parent → next.node? m = doc.node? m
  shows : next.ShowsAll (fun m => doc.nodes.size ≤ m ∧ m < next.nodes.size) (some parent) trees nodes

theorem Planted.nil (doc : Document η π) (parent : NodeId) : Planted doc doc parent [] [] := by
  refine ⟨le_rfl, ?_, fun _ _ _ => rfl, rfl⟩
  cases found : doc.node? parent <;> simp

theorem Planted.append {doc middle next : Document η π} {parent : NodeId} {trees more : List Tree}
    {nodes others : List NodeId} (present : parent < doc.nodes.size) (one : Planted doc middle parent trees nodes)
    (two : Planted middle next parent more others) :
    Planted doc next parent (trees ++ more) (nodes ++ others) where
  size_le := one.size_le.trans two.size_le
  parent_eq := by
    rw [two.parent_eq, one.parent_eq, Option.map_map]
    simp [Function.comp_def]
  others m bound apart := (two.others m (bound.trans_le one.size_le) apart).trans (one.others m bound apart)
  shows := by
    have kept : next.ShowsAll (fun m => doc.nodes.size ≤ m ∧ m < middle.nodes.size) (some parent) trees nodes :=
      one.shows.frame (fun m h => two.others m h.2 (present.trans_le h.1).ne') fun _ => id
    exact kept.append two.shows (fun m r h h' => h.2.trans_le h'.1)
      (fun m h => ⟨h.1, h.2.trans_le two.size_le⟩) fun m h => ⟨one.size_le.trans h.1, h.2⟩

theorem planted_leaf (present : parent < doc.nodes.size) {kind : Kind} {data : String} {tree : Tree}
    (shows : ∀ (next : Document η π) mem n, mem n →
      next.node? n = some { kind, data, parent := some parent } → next.Shows mem (some parent) tree n) :
    Planted doc ((doc.create kind data).2.place parent doc.nodes.size none) parent [tree] [doc.nodes.size] := by
  have apart : parent ≠ doc.nodes.size := present.ne
  have free : (doc.create kind data).2.parent? doc.nodes.size = none := by simp [parent?, node?_create]
  have placed := node?_place_free free apart
  have size : ((doc.create kind data).2.place parent doc.nodes.size none).nodes.size = doc.nodes.size + 1 := by
    rw [(rearranged_place _ _ _ _).size_eq]
    simp [create]
  refine ⟨by omega, ?_, ?_, ?_⟩
  · rw [placed, if_pos rfl, node?_create, if_neg apart]
  · intro m bound other
    rw [placed, if_neg other, if_neg bound.ne, node?_create, if_neg bound.ne]
  · refine ⟨_, _, rfl, shows _ _ _ ⟨⟨le_rfl, by rw [size]; exact Nat.lt_succ_self _⟩, by simp⟩ ?_, rfl⟩
    rw [placed, if_neg apart.symm, if_pos rfl, node?_create, if_pos rfl]
    rfl

mutual

theorem planted_addTree {doc : Document η π} {parent : NodeId} (present : parent < doc.nodes.size) (tree : Tree) :
    ∃ n, Planted doc (addTree parent tree doc) parent [tree] [n] := by
  match tree with
  | .text data => exact ⟨_, planted_leaf present fun _ _ _ here found => ⟨here, found⟩⟩
  | .comment data => exact ⟨_, planted_leaf present fun _ _ _ here found => ⟨here, found⟩⟩
  | .element tag svg attributes children =>
    let bare := (doc.create (.element tag svg) "").2.modifyNode doc.nodes.size fun node => { node with attributes }
    let opened := bare.place parent doc.nodes.size none
    have apart : parent ≠ doc.nodes.size := present.ne
    have made : bare.node? doc.nodes.size = some { kind := .element tag svg, attributes } := by
      simp [bare, node?_create]
    have free : bare.parent? doc.nodes.size = none := by simp [parent?, made]
    have old : ∀ m < doc.nodes.size, bare.node? m = doc.node? m := by
      intro m bound
      simp [bare, node?_create, bound.ne, bound.ne']
    have placed : ∀ m, opened.node? m = _ := node?_place_free free apart
    have size : opened.nodes.size = doc.nodes.size + 1 := by
      rw [(rearranged_place _ _ _ _).size_eq]
      simp [bare, create, modifyNode]
    have last : doc.nodes.size < opened.nodes.size := by
      rw [size]
      exact Nat.lt_succ_self _
    have bound : parent < opened.nodes.size := present.trans last
    have whole : addTree parent (.element tag svg attributes children) doc = addTrees doc.nodes.size children opened := by
      rw [addTree]
      rfl
    obtain ⟨nodes, inner⟩ := planted_addTrees last children
    rw [whole]
    refine ⟨doc.nodes.size, ⟨?_, ?_, ?_, ?_⟩⟩
    · exact last.le.trans inner.size_le
    · rw [inner.others parent bound apart, placed, if_pos rfl, old parent present]
    · intro m below other
      rw [inner.others m (below.trans last) below.ne, placed, if_neg other, if_neg below.ne,
        old m below]
    · refine ⟨_, _, rfl, ⟨⟨⟨le_rfl, ?_⟩, by simp⟩, nodes, ?_, ?_⟩, rfl⟩
      · exact last.trans_le inner.size_le
      · rw [inner.parent_eq, placed, if_neg apart.symm, if_pos rfl, made]
        rfl
      · refine inner.shows.frame (fun _ _ => rfl) fun m h => ?_
        have above : doc.nodes.size < m := last.trans_le h.1
        exact ⟨⟨⟨above.le, h.2⟩, by simp⟩, above⟩

theorem planted_addTrees {doc : Document η π} {parent : NodeId} (present : parent < doc.nodes.size) (trees : List Tree) :
    ∃ nodes, Planted doc (addTrees parent trees doc) parent trees nodes := by
  match trees with
  | [] => exact ⟨[], .nil doc parent⟩
  | tree :: trees =>
    obtain ⟨n, first⟩ := planted_addTree present tree
    obtain ⟨nodes, others⟩ := planted_addTrees (present.trans_le first.size_le) trees
    exact ⟨n :: nodes, first.append present others⟩

end

theorem ofTrees_shows (doc : Document η π) (forest : List Tree) :
    ∃ nodes next, doc.ofTrees forest = (doc.nodes.size, next) ∧ Extended doc next ∧
      doc.nodes.size < next.nodes.size ∧ next.node? doc.nodes.size = some { kind := .fragment, children := nodes } ∧
      next.ShowsAll (fun m => doc.nodes.size < m ∧ m < next.nodes.size) (some doc.nodes.size) forest nodes := by
  have size : (doc.createFragment).2.nodes.size = doc.nodes.size + 1 := by simp [createFragment, create]
  have present : doc.nodes.size < (doc.createFragment).2.nodes.size := by omega
  obtain ⟨nodes, planted⟩ := planted_addTrees present forest
  refine ⟨nodes, addTrees doc.nodes.size forest doc.createFragment.2, rfl,
    ⟨present.le.trans planted.size_le, fun m bound => ?_⟩, present.trans_le planted.size_le, ?_, ?_⟩
  · rw [planted.others m (bound.trans present) bound.ne]
    exact (node?_create doc .fragment "" m).trans (if_neg bound.ne)
  · rw [planted.parent_eq]
    have made := (node?_create doc .fragment "" doc.nodes.size).trans (if_pos rfl)
    rw [createFragment, made]
    rfl
  · exact planted.shows.frame (fun _ _ => rfl) fun m h => ⟨present.trans_le h.1, h.2⟩

end Making

end LiveMarkup.Document

namespace LiveMarkup.Markup.Tree
open List

mutual

def levels : Tree → Nat
  | .text _ => 1
  | .comment _ => 1
  | .element _ _ _ children => 1 + levelsOfAll children

def levelsOfAll : List Tree → Nat
  | [] => 0
  | tree :: rest => max (levels tree) (levelsOfAll rest)

end

end LiveMarkup.Markup.Tree

namespace LiveMarkup.Document
open List
open Markup (Tree)

variable {η π : Type}

section Copying

variable {parent : Option NodeId} {doc : Document η π} {tree : Tree} {n : NodeId}

theorem Extended.refl (doc : Document η π) : Extended doc doc := ⟨le_rfl, fun _ _ => rfl⟩

theorem Extended.trans {first second third : Document η π} (one : Extended first second) (two : Extended second third) :
    Extended first third :=
  ⟨one.size_le.trans two.size_le,
    fun m bound => (two.node?_eq m (bound.trans_le one.size_le)).trans (one.node?_eq m bound)⟩

theorem extended_create (doc : Document η π) (kind : Kind) (data : String) : Extended doc (doc.create kind data).2 := by
  refine ⟨by simp [create], fun m bound => ?_⟩
  rw [node?_create, if_neg bound.ne]

theorem Extended.lists {doc next : Document η π} (extended : Extended doc next) {parent : NodeId} {nodes : List NodeId}
    (lists : doc.Lists parent nodes) : next.Lists parent nodes := by
  obtain ⟨_, there⟩ := Option.isSome_iff_exists.mp lists.present
  have same := extended.node?_eq parent (lt_size_of_node? there)
  refine ⟨by rw [same]; exact lists.present, by rw [children, same]; exact lists.children_eq, lists.once, ?_⟩
  intro m mem
  obtain ⟨_, found⟩ := Option.isSome_iff_exists.mp (present_of_parent? (lists.parents m mem))
  rw [parent?, extended.node?_eq m (lt_size_of_node? found)]
  exact lists.parents m mem

structure Copied (doc next : Document η π) (trees : List Tree) (copies : List NodeId) : Prop where
  extended : Extended doc next
  shows : next.ShowsAll (fun m => doc.nodes.size ≤ m ∧ m < next.nodes.size) none trees copies

theorem node?_setParents (doc : Document η π) (nodes : List NodeId) (parent : Option NodeId) (m : NodeId) :
    (nodes.foldl (fun doc n => doc.setParent n parent) doc).node? m =
      if m ∈ nodes then (doc.node? m).map ({ · with parent := parent }) else doc.node? m := by
  induction nodes generalizing doc with
  | nil => simp
  | cons n nodes ih =>
    rw [foldl_cons, ih, setParent, node?_modifyNode]
    by_cases here : n = m <;> by_cases later : m ∈ nodes <;> cases found : doc.node? m <;>
      simp [here, later, Ne.symm]

theorem copyUpTo_all (Fit : Document η π → List NodeId → Prop)
    (Made : Document η π → Document η π → List NodeId → List NodeId → Prop) {fuel : Nat}
    (nil : ∀ doc, Fit doc [] → Made doc doc [] [])
    (cons : ∀ doc n nodes before, Fit doc (n :: nodes) → ∃ copy middle,
      copyNode (copyUpTo fuel) before doc n = (before ++ [copy], middle) ∧ Fit middle nodes ∧
        ∀ next copies, Made middle next nodes copies → Made doc next (n :: nodes) (copy :: copies))
    {doc : Document η π} {nodes : List NodeId} (fit : Fit doc nodes) :
    ∃ copies next, copyUpTo (fuel + 1) nodes doc = (copies, next) ∧ Made doc next nodes copies := by
  suffices every : ∀ before : List NodeId, ∃ copies next,
      nodes.foldl (fun made n => copyNode (copyUpTo fuel) made.1 made.2 n) (before, doc) = (before ++ copies, next) ∧
        Made doc next nodes copies from every []
  intro before
  induction nodes generalizing doc before with
  | nil => exact ⟨[], doc, by simp, nil doc fit⟩
  | cons n nodes ih =>
    obtain ⟨copy, _, here, fit, whole⟩ := cons doc n nodes before fit
    obtain ⟨copies, next, later, made⟩ := ih fit (before ++ [copy])
    refine ⟨copy :: copies, next, ?_, whole next copies made⟩
    rw [foldl_cons]
    simp only [here]
    rw [later, append_assoc]
    rfl

theorem Copied.nil (doc : Document η π) : Copied doc doc [] [] := ⟨.refl doc, rfl⟩

theorem Copied.append {doc middle next : Document η π} {trees more : List Tree} {copies others : List NodeId}
    (one : Copied doc middle trees copies) (two : Copied middle next more others) :
    Copied doc next (trees ++ more) (copies ++ others) := by
  refine ⟨one.extended.trans two.extended, ?_⟩
  have kept : next.ShowsAll (fun m => doc.nodes.size ≤ m ∧ m < middle.nodes.size) none trees copies :=
    one.shows.frame (fun m h => two.extended.node?_eq m h.2) fun _ => id
  exact kept.append two.shows (fun m r h h' => h.2.trans_le h'.1)
    (fun m h => ⟨h.1, h.2.trans_le two.extended.size_le⟩)
    fun m h => ⟨one.extended.size_le.trans h.1, h.2⟩

theorem Shows.record {mem : NodeId → Prop} (shows : doc.Shows mem parent tree n) : ∃ kind data attributes trees nodes,
      doc.node? n = some { kind, data, attributes, parent, children := nodes } ∧
      doc.ShowsAll (fun m => mem m ∧ n < m) (some n) trees nodes ∧ Tree.levelsOfAll trees < tree.levels ∧
      ∀ (next : Document η π) wider other m nodes, wider m →
        next.node? m = some { kind, data, attributes, parent := other, children := nodes } →
        next.ShowsAll (fun r => wider r ∧ m < r) (some m) trees nodes → next.Shows wider other tree m := by
  match tree with
  | .text data =>
    refine ⟨.text, data, [], [], [], shows.2, rfl, by simp [Tree.levels, Tree.levelsOfAll], ?_⟩
    rintro _ _ _ _ _ here found rfl
    exact ⟨here, found⟩
  | .comment data =>
    refine ⟨.comment, data, [], [], [], shows.2, rfl, by simp [Tree.levels, Tree.levelsOfAll], ?_⟩
    rintro _ _ _ _ _ here found rfl
    exact ⟨here, found⟩
  | .element tag svg attributes children =>
    obtain ⟨_, nodes, found, below⟩ := shows
    refine ⟨.element tag svg, "", attributes, children, nodes, found, below, by simp [Tree.levels], ?_⟩
    exact fun next wider other m nodes here found below => ⟨here, nodes, found, below⟩

theorem rearranged_setParents (doc : Document η π) (nodes : List NodeId) (parent : Option NodeId) :
    Rearranged doc (nodes.foldl (fun doc n => doc.setParent n parent) doc) := by
  induction nodes generalizing doc with
  | nil => exact .refl doc
  | cons n nodes ih => exact (rearranged_setParent doc n parent).trans (ih _)

theorem node?_closed (filled : Document η π) {copy : NodeId} {nodes : List NodeId} (new : ∀ m ∈ nodes, copy < m)
    (attributes : Markup.Attributes) (m : NodeId) :
    (nodes.foldl (fun doc child => doc.setParent child (some copy))
      (filled.modifyNode copy fun node => { node with attributes, children := nodes })).node? m =
      if m ∈ nodes then (filled.node? m).map ({ · with parent := some copy })
      else if m = copy then (filled.node? m).map fun node => { node with attributes, children := nodes }
      else filled.node? m := by
  rw [node?_setParents _ nodes (some copy) m]
  by_cases child : m ∈ nodes
  · have apart : ¬ copy = m := (new m child).ne
    simp [child, apart]
  · by_cases here : copy = m
    · simp [child, here]
    · have apart : ¬ m = copy := fun h => here h.symm
      simp [child, here, apart]

/-- What is stored after a node with the record `node` was copied, when its children were copied in `filled`. -/
structure Closed (doc filled final : Document η π) (node : Node η π) (nodes : List NodeId) : Prop where
  size_eq : final.nodes.size = filled.nodes.size
  extended : Extended doc final
  copy_eq : final.node? doc.nodes.size =
    some { kind := node.kind, data := node.data, attributes := node.attributes, children := nodes }
  others : ∀ m, m ≠ doc.nodes.size → final.node? m =
    if m ∈ nodes then (filled.node? m).map ({ · with parent := some doc.nodes.size }) else filled.node? m

theorem closed_copyNode {copyAll : List NodeId → Document η π → List NodeId × Document η π} {node : Node η π}
    (found : doc.node? n = some node) {nodes : List NodeId} {filled : Document η π}
    (made : copyAll node.children (doc.create node.kind node.data).2 = (nodes, filled))
    (extended : Extended (doc.create node.kind node.data).2 filled) (new : ∀ m ∈ nodes, doc.nodes.size < m)
    (copies : List NodeId) :
    ∃ final, copyNode copyAll copies doc n = (copies ++ [doc.nodes.size], final) ∧ Closed doc filled final node nodes := by
  let begun := (doc.create node.kind node.data).2
  let copy := doc.nodes.size
  let final := nodes.foldl (fun doc child => doc.setParent child (some copy))
    (filled.modifyNode copy fun stored => { stored with attributes := node.attributes, children := nodes })
  have start : Extended doc begun := extended_create doc _ _
  have last : copy < begun.nodes.size := by simp [begun, copy, create]
  have known : begun.node? n = some node := (start.node?_eq n (lt_size_of_node? found)).trans found
  have size : final.nodes.size = filled.nodes.size :=
    (rearranged_setParents _ nodes (some copy)).size_eq.trans (by simp [modifyNode])
  have node? : ∀ m, final.node? m = _ := node?_closed filled new node.attributes
  have absent : copy ∉ nodes := fun mem => lt_irrefl _ (new copy mem)
  refine ⟨final, ?_, size, ⟨?_, fun m old => ?_⟩, ?_, fun m apart => ?_⟩
  · simp only [copyNode, kind_of_node? found, show doc.data n = node.data by simp [data, found]]
    rw [show (doc.create node.kind node.data).2 = begun from rfl, children_of_node? known, known, made]
    rfl
  · exact size ▸ start.size_le.trans extended.size_le
  · have apart : m ∉ nodes := fun mem => Nat.lt_asymm old (new m mem)
    rw [node?, if_neg apart, if_neg old.ne,
      extended.node?_eq m (old.trans_le start.size_le), start.node?_eq m old]
  · rw [node?, if_neg absent, if_pos rfl, extended.node?_eq copy last, node?_create, if_pos rfl]
    rfl
  · rw [node?, if_neg (show ¬ m = copy from apart)]

theorem copied_copyNode {copyAll : List NodeId → Document η π → List NodeId × Document η π} {inside : NodeId → Prop}
    (shows : doc.Shows inside parent tree n) (old : ∀ m, inside m → m < doc.nodes.size)
    (inner : ∀ (doc : Document η π) (inside : NodeId → Prop) parent trees nodes,
      doc.ShowsAll inside parent trees nodes → (∀ m, inside m → m < doc.nodes.size) →
      Tree.levelsOfAll trees < tree.levels →
        ∃ copies next, copyAll nodes doc = (copies, next) ∧ Copied doc next trees copies) (copies : List NodeId) :
    ∃ copy next, copyNode copyAll copies doc n = (copies ++ [copy], next) ∧ Copied doc next [tree] [copy] := by
  obtain ⟨kind, data, _, trees, nodes, found, below, shorter, rebuild⟩ := shows.record
  let begun := (doc.create kind data).2
  let copy := doc.nodes.size
  have extended : Extended doc begun := extended_create doc kind data
  have size : begun.nodes.size = copy + 1 := by simp [begun, copy, create]
  obtain ⟨children, filled, made, copied⟩ := inner begun _ (some n) trees nodes
    (below.frame (fun m h => extended.node?_eq m (old m h.1)) fun _ => id)
    (fun m h => (old m h.1).trans_le extended.size_le) shorter
  have low : ∀ m, begun.nodes.size ≤ m → copy < m := fun m above => by omega
  have new : ∀ child ∈ children, copy < child := fun child mem => low child (copied.shows.inside child mem).1
  obtain ⟨next, written, closed⟩ := closed_copyNode found made copied.extended new copies
  refine ⟨copy, next, written, closed.extended, copy, [], rfl, ?_, rfl⟩
  refine rebuild next _ none copy children ⟨⟨le_rfl, ?_⟩, by simp⟩ closed.copy_eq ?_
  · have last : copy < begun.nodes.size := size ▸ Nat.lt_succ_self copy
    exact closed.size_eq ▸ last.trans_le copied.extended.size_le
  · have moved : next.ShowsAll (fun m => begun.nodes.size ≤ m ∧ m < filled.nodes.size) (some copy) trees children := by
      refine copied.shows.reparent (some copy) (fun child mem => ?_) fun m h apart => ?_
      · rw [closed.others child (new child mem).ne', if_pos mem]
      · rw [closed.others m (low m h.1).ne', if_neg apart]
    refine moved.frame (fun _ _ => rfl) fun m h => ⟨⟨⟨(low m h.1).le, ?_⟩, by simp⟩, low m h.1⟩
    exact closed.size_eq ▸ h.2

theorem copied_copyUpTo (fuel : Nat) (doc : Document η π) (mem : NodeId → Prop) (parent : Option NodeId)
    (trees : List Tree) (nodes : List NodeId) (shows : doc.ShowsAll mem parent trees nodes)
    (old : ∀ m, mem m → m < doc.nodes.size) (deep : Tree.levelsOfAll trees ≤ fuel) :
    ∃ copies next, copyUpTo fuel nodes doc = (copies, next) ∧ Copied doc next trees copies := by
  induction fuel generalizing doc mem parent trees nodes with
  | zero =>
    cases trees with
    | nil => exact ⟨[], doc, rfl, .nil doc⟩
    | cons tree trees => cases tree <;> simp [Tree.levelsOfAll, Tree.levels] at deep
  | succ fuel ih =>
    suffices every : ∀ before : List NodeId, ∃ copies next,
        nodes.foldl (fun made n => copyNode (copyUpTo fuel) made.1 made.2 n) (before, doc) =
          (before ++ copies, next) ∧ Copied doc next trees copies by
      exact every []
    intro before
    induction trees generalizing doc mem nodes before with
    | nil =>
      obtain rfl : nodes = [] := shows
      exact ⟨[], doc, by simp, .nil doc⟩
    | cons tree trees rest =>
      obtain ⟨_, nodes, rfl, first, others⟩ := shows
      rw [Tree.levelsOfAll, Nat.max_le] at deep
      obtain ⟨copy, middle, here, copied⟩ := copied_copyNode first (fun m h => old m h.1)
        (fun doc mem parent trees nodes shows old shorter => ih doc mem parent trees nodes shows old (by omega))
        before
      obtain ⟨copies, next, later, more⟩ := rest middle _ nodes
        (others.frame (fun m h => copied.extended.node?_eq m (old m h.1)) fun _ => id)
        (fun m h => (old m h.1).trans_le copied.extended.size_le) deep.2 (before ++ [copy])
      refine ⟨copy :: copies, next, ?_, copied.append more⟩
      rw [foldl_cons]
      simp only [here]
      rw [later, append_assoc]
      rfl

mutual

theorem Shows.levels_le {doc : Document η π} {mem : NodeId → Prop} {parent : Option NodeId}
    {tree : Tree} {n last : Nat} (shows : doc.Shows mem parent tree n) (bound : ∀ m, mem m → m < last) :
    n + tree.levels ≤ last := by
  match tree with
  | .text data => exact bound n shows.1
  | .comment data => exact bound n shows.1
  | .element tag svg attributes children =>
    obtain ⟨here, _, _, below⟩ := shows
    have within := below.levels_le (bound n here) (fun m h => bound m h.1) fun m h => h.2
    rw [Tree.levels]
    omega

theorem ShowsAll.levels_le {doc : Document η π} {mem : NodeId → Prop} {parent : Option NodeId}
    {trees : List Tree} {nodes : List NodeId} {first last : Nat} (shows : doc.ShowsAll mem parent trees nodes)
    (some : first ≤ last) (bound : ∀ m, mem m → m < last) (start : ∀ m, mem m → first ≤ m) :
    first + Tree.levelsOfAll trees ≤ last := by
  match trees with
  | [] => exact some
  | tree :: trees =>
    obtain ⟨n, _, _, here, others⟩ := shows
    have one := here.levels_le fun m h => bound m h.1
    have two := others.levels_le some (fun m h => bound m h.1) fun m h => start m h.1
    have low := start n here.inside.1
    rw [Tree.levelsOfAll]
    omega

end

theorem copyDeep_shows {mem : NodeId → Prop} (shows : doc.Shows mem parent tree n)
    (old : ∀ m, mem m → m < doc.nodes.size) :
    ∃ copy next, doc.copyDeep n = (copy, next) ∧ Extended doc next ∧
      next.Shows (fun m => doc.nodes.size ≤ m ∧ m < next.nodes.size) none tree copy := by
  have deep : tree.levels ≤ doc.nodes.size + 1 := Nat.le_succ_of_le ((Nat.le_add_left _ n).trans (shows.levels_le old))
  have alone : doc.ShowsAll mem parent [tree] [n] :=
    ⟨n, [], rfl, shows.frame (fun _ _ => rfl) fun m h => ⟨h, by simp⟩, rfl⟩
  obtain ⟨_, next, made, copied⟩ := copied_copyUpTo _ doc mem parent [tree] [n] alone old
    (by simpa [Tree.levelsOfAll] using deep)
  obtain ⟨copy, rest, rfl, here, none⟩ := copied.shows
  obtain rfl : rest = [] := none
  refine ⟨copy, next, ?_, copied.extended, here.frame (fun _ _ => rfl) fun m h => h.1⟩
  simp only [copyDeep, made]
  rfl

end Copying

end LiveMarkup.Document
