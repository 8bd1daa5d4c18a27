import LiveMarkup.Proofs.Records
import Mathlib.Logic.Relation

/-!
Documents that are made by edits. Each edit makes nodes, copies nodes or moves them about, and none of them puts a node
into itself; whatever is done one after the other, parents and lists of children agree, no list holds a node twice or a
fragment, and nobody stands in itself.
-/

namespace LiveMarkup.Document
open Markup (Tree)
open List

variable {η π : Type} {doc next : Document η π} {n : NodeId} {child m : NodeId}

def Under (doc : Document η π) (child parent : NodeId) : Prop := doc.parent? child = some parent

def Within (doc : Document η π) (top n : NodeId) : Prop := Relation.ReflTransGen doc.Under n top

/-- Parents and lists of children agree, the lists hold no node twice and no fragment, and no node is above itself. -/
structure WellFormed (doc : Document η π) : Prop where
  mem_iff : ∀ parent n, n ∈ doc.children parent ↔ doc.parent? n = some parent
  once : ∀ parent, (doc.children parent).Nodup
  solid : ∀ parent, ∀ n ∈ doc.children parent, doc.isFragment n = false
  acyclic : ∀ n, ¬ Relation.TransGen doc.Under n n

theorem present_iff : (doc.node? n).isSome ↔ n < doc.nodes.size := by
  simp [node?]

theorem children_of_absent (absent : doc.node? n = none) : doc.children n = [] := by
  simp [children, absent]

theorem isFragment_congr (same : next.kind n = doc.kind n) : next.isFragment n = doc.isFragment n := by
  simp [isFragment, same]

namespace WellFormed

theorem congr (wellFormed : doc.WellFormed) (parents : ∀ n, next.parent? n = doc.parent? n)
    (lists : ∀ n, next.children n = doc.children n) (kinds : ∀ n, next.kind n = doc.kind n) : next.WellFormed where
  mem_iff parent n := by rw [lists, parents, wellFormed.mem_iff]
  once parent := by rw [lists]; exact wellFormed.once parent
  solid parent n mem := by
    rw [isFragment_congr (kinds n)]
    exact wellFormed.solid parent n (lists parent ▸ mem)
  acyclic n := by
    have same : next.Under = doc.Under := by
      funext child parent
      rw [Under, Under, parents]
    rw [same]
    exact wellFormed.acyclic n

theorem present (wellFormed : doc.WellFormed) {parent : NodeId} (under : doc.Under child parent) :
    (doc.node? parent).isSome := by
  have listed := (wellFormed.mem_iff parent child).mpr under
  by_contra absent
  rw [children_of_absent (by simpa using absent)] at listed
  cases listed

theorem lists (wellFormed : doc.WellFormed) {parent : NodeId} (there : (doc.node? parent).isSome) :
    doc.Lists parent (doc.children parent) :=
  ⟨there, rfl, wellFormed.once parent, fun n mem => (wellFormed.mem_iff parent n).mp mem⟩

theorem present_top (wellFormed : doc.WellFormed) {top n : NodeId} (there : (doc.node? n).isSome)
    (within : doc.Within top n) : (doc.node? top).isSome := by
  rcases within.cases_tail with same | ⟨child, _, under⟩
  · exact same ▸ there
  · exact wellFormed.present under

theorem empty : ({} : Document η π).WellFormed where
  mem_iff parent n := by simp [children, parent?, node?]
  once parent := by simp [children, node?]
  solid parent n mem := by simp [children, node?] at mem
  acyclic n cycle := by
    obtain ⟨_, under, _⟩ := Relation.TransGen.head'_iff.mp cycle
    simp [Under, parent?, node?] at under

end WellFormed

section Moving

variable {nodes : List NodeId} {mark : Option NodeId} {top : NodeId}

theorem Rearranged.present {n : NodeId} (rearranged : Rearranged doc next) :
    (next.node? n).isSome = (doc.node? n).isSome := by
  rw [rearranged.node?_eq, Option.isSome_map]

theorem under_remove {n parent : NodeId} (under : (doc.remove n).Under child parent) : doc.Under child parent := by
  rw [Under, parent?_remove] at under
  split at under
  · cases under
  · exact under

theorem WellFormed.remove (wellFormed : doc.WellFormed) (n : NodeId) : (doc.remove n).WellFormed where
  mem_iff parent m := by
    rw [children_remove, parent?_remove]
    by_cases same : m = n
    · subst same
      split
      · simp
      · rename_i elsewhere
        simpa [wellFormed.mem_iff] using elsewhere
    · split <;> simp [same, wellFormed.mem_iff]
  once parent := by
    rw [children_remove]
    split
    · exact (wellFormed.once parent).filter _
    · exact wellFormed.once parent
  solid parent m mem := by
    rw [isFragment_congr (kind_remove doc n m)]
    rw [children_remove] at mem
    split at mem
    · exact wellFormed.solid parent m (mem_of_mem_filter mem)
    · exact wellFormed.solid parent m mem
  acyclic m cycle := wellFormed.acyclic m (Relation.TransGen.mono (fun _ _ => under_remove) _ _ cycle)

theorem within_remove {n : NodeId} (within : (doc.remove n).Within top m) : doc.Within top m :=
  Relation.ReflTransGen.mono (fun _ _ => under_remove) _ _ within

theorem WellFormed.removeAll (wellFormed : doc.WellFormed) (nodes : List NodeId) : (doc.removeAll nodes).WellFormed := by
  induction nodes generalizing doc with
  | nil => exact wellFormed
  | cons n _ ih => exact ih (wellFormed.remove n)

theorem within_removeAll (within : (doc.removeAll nodes).Within top m) : doc.Within top m := by
  induction nodes generalizing doc with
  | nil => exact within
  | cons _ _ ih => exact within_remove (ih within)

theorem insertInto_perm (n : NodeId) (mark : Option NodeId) (nodes : List NodeId) :
    (insertInto n mark nodes).Perm (n :: nodes) := by
  induction nodes with
  | nil => exact .refl _
  | cons m nodes ih =>
    rw [insertInto]
    split
    · exact .refl _
    · exact (ih.cons m).trans (.swap n m nodes)

theorem insertInto_of_not_mem {n : NodeId} (absent : ∀ m, mark = some m → m ∉ nodes) :
    insertInto n mark nodes = nodes ++ [n] := by
  induction nodes with
  | nil => rfl
  | cons m _ ih =>
    have apart : mark ≠ some m := fun same => absent m same (by simp)
    rw [insertInto, if_neg apart, ih fun k same mem => absent k same (by simp [mem]), cons_append]

variable {parent n : NodeId}

theorem within_place (there : (doc.node? n).isSome) (outside : ¬ doc.Within n parent)
    (within : (doc.place parent n mark).Within top parent) : doc.Within top parent := by
  induction within with
  | refl => exact .refl
  | tail _ under ih =>
    rename_i middle high _
    have apart : middle ≠ n := fun same => outside (same ▸ ih)
    rw [Under, parent?_place there, if_neg apart] at under
    exact ih.tail under

theorem transGen_place (there : (doc.node? n).isSome) {low high : NodeId}
    (above : Relation.TransGen (doc.place parent n mark).Under low high) :
    Relation.TransGen doc.Under low high ∨
      (doc.place parent n mark).Within n low ∧ (doc.place parent n mark).Within high parent := by
  induction above with
  | single under =>
    by_cases same : low = n
    · subst same
      rw [Under, parent?_place there, if_pos rfl] at under
      obtain rfl := Option.some.inj under
      exact .inr ⟨.refl, .refl⟩
    · rw [Under, parent?_place there, if_neg same] at under
      exact .inl (.single under)
  | @tail middle _ lower under ih =>
    by_cases same : middle = n
    · subst same
      have landed := under
      rw [Under, parent?_place there, if_pos rfl] at landed
      obtain rfl := Option.some.inj landed
      exact .inr ⟨lower.to_reflTransGen, .refl⟩
    · rcases ih with old | ⟨first, last⟩
      · rw [Under, parent?_place there, if_neg same] at under
        exact .inl (old.tail under)
      · exact .inr ⟨first, last.tail under⟩

theorem WellFormed.place (wellFormed : doc.WellFormed) (room : (doc.node? parent).isSome) (there : (doc.node? n).isSome)
    (solid : doc.isFragment n = false) (outside : ¬ doc.Within n parent) (mark : Option NodeId) :
    (doc.place parent n mark).WellFormed where
  mem_iff p m := by
    rw [children_place room, parent?_place there]
    by_cases here : p = parent
    · subst here
      rw [if_pos rfl, (insertInto_perm n _ _).mem_iff, mem_cons, children_detach]
      by_cases same : m = n
      · simp [same]
      · split <;> simp [same, wellFormed.mem_iff]
    · rw [if_neg here, children_detach]
      by_cases same : m = n
      · subst same
        have apart : parent ≠ p := fun h => here h.symm
        split
        · simp [apart]
        · rename_i elsewhere
          simpa [apart, wellFormed.mem_iff] using elsewhere
      · split <;> simp [same, wellFormed.mem_iff]
  once p := by
    have once : ((doc.detach n).children p).Nodup := by
      rw [children_detach]
      split
      · exact (wellFormed.once p).filter _
      · exact wellFormed.once p
    rw [children_place room]
    split
    · rename_i here
      subst here
      refine (insertInto_perm n _ _).nodup_iff.mpr (nodup_cons.mpr ⟨?_, once⟩)
      rw [children_detach]
      split
      · simp
      · rename_i elsewhere
        exact fun mem => elsewhere ((wellFormed.mem_iff p n).mp mem)
    · exact once
  solid p m mem := by
    rw [isFragment_congr (kind_place doc parent n m mark)]
    by_cases same : m = n
    · exact same ▸ solid
    · have old : m ∈ (doc.detach n).children p := by
        rw [children_place room] at mem
        split at mem
        · rename_i here
          subst here
          exact ((mem_cons.mp ((insertInto_perm n _ _).mem_iff.mp mem)).resolve_left same)
        · exact mem
      rw [children_detach] at old
      split at old
      · exact wellFormed.solid p m (mem_of_mem_filter old)
      · exact wellFormed.solid p m old
  acyclic m cycle := by
    rcases transGen_place there cycle with old | ⟨first, last⟩
    · exact wellFormed.acyclic m old
    · exact outside (within_place there outside (Relation.ReflTransGen.trans last first))

/-- A node can be put under a parent: both are nodes of the document, and the parent does not stand in the node. -/
structure Insertable (doc : Document η π) (parent n : NodeId) : Prop where
  room : (doc.node? parent).isSome
  there : (doc.node? n).isSome
  outside : ¬ doc.Within n parent

variable (wellFormed : doc.WellFormed)
include wellFormed

theorem placed_all (insertable : ∀ m ∈ nodes, doc.Insertable parent m) (solid : ∀ m ∈ nodes, doc.isFragment m = false) :
    (doc.placeAll parent nodes mark).WellFormed ∧
      ∀ top, (doc.placeAll parent nodes mark).Within top parent → doc.Within top parent := by
  induction nodes generalizing doc with
  | nil => exact ⟨wellFormed, fun _ within => within⟩
  | cons m nodes ih =>
    have first := insertable m (by simp)
    have placed := wellFormed.place first.room first.there (solid m (by simp)) first.outside mark
    have back : ∀ top, (doc.place parent m mark).Within top parent → doc.Within top parent :=
      fun _ => within_place first.there first.outside
    have later : ∀ k ∈ nodes, (doc.place parent m mark).Insertable parent k := fun k mem =>
      have other := insertable k (by simp [mem])
      ⟨by simpa using other.room, by simpa using other.there, fun within => other.outside (back k within)⟩
    obtain ⟨kept, above⟩ := ih placed later fun k mem =>
      (isFragment_congr (kind_place doc parent m k mark)).trans (solid k (by simp [mem]))
    exact ⟨kept, fun top within => back top (above top within)⟩

theorem WellFormed.insertBefore (insertable : doc.Insertable parent n) (mark : Option NodeId) :
    (doc.insertBefore parent n mark).WellFormed ∧
      ∀ top, (doc.insertBefore parent n mark).Within top parent → doc.Within top parent := by
  unfold Document.insertBefore
  split
  · refine placed_all wellFormed (fun m mem => ?_) (wellFormed.solid n)
    have under := (wellFormed.mem_iff n m).mp mem
    exact ⟨insertable.room, present_of_parent? under, fun within => insertable.outside (within.tail under)⟩
  · rename_i solid
    exact ⟨wellFormed.place insertable.room insertable.there (by simpa using solid) insertable.outside mark,
      fun _ => within_place insertable.there insertable.outside⟩

theorem WellFormed.appendAll (insertable : ∀ m ∈ nodes, doc.Insertable parent m) :
    (nodes.foldl (fun doc m => doc.append parent m) doc).WellFormed := by
  induction nodes generalizing doc with
  | nil => exact wellFormed
  | cons m _ ih =>
    obtain ⟨kept, above⟩ := wellFormed.insertBefore (insertable m (by simp)) none
    have same := rearranged_insertBefore doc parent m none
    refine ih kept fun k mem => ?_
    have other := insertable k (by simp [mem])
    exact ⟨same.present.trans other.room, same.present.trans other.there,
      fun within => other.outside (above k within)⟩

theorem WellFormed.replaceChildren (insertable : ∀ m ∈ nodes, doc.Insertable n m) :
    (doc.replaceChildren n nodes).WellFormed := by
  have same := rearranged_removeAll doc (doc.children n)
  refine (wellFormed.removeAll (doc.children n)).appendAll fun m mem => ?_
  have given := insertable m mem
  exact ⟨same.present.trans given.room, same.present.trans given.there,
    fun within => given.outside (within_removeAll within)⟩

end Moving

section Making

variable (kind : Kind) (data : String)

@[simp]
theorem parent?_create (m : NodeId) : (doc.create kind data).2.parent? m = doc.parent? m := by
  by_cases fresh : m = doc.nodes.size
  · simp [parent?, node?_create, fresh, node?_ge doc (Nat.le_refl _)]
  · simp [parent?, node?_create, fresh]

@[simp]
theorem children_create (m : NodeId) : (doc.create kind data).2.children m = doc.children m := by
  by_cases fresh : m = doc.nodes.size
  · simp [children, node?_create, fresh, node?_ge doc (Nat.le_refl _)]
  · simp [children, node?_create, fresh]

theorem kind_create (m : NodeId) :
    (doc.create kind data).2.kind m = if m = doc.nodes.size then kind else doc.kind m := by
  by_cases fresh : m = doc.nodes.size <;> simp [Document.kind, node?_create, fresh]

theorem size_create : (doc.create kind data).2.nodes.size = doc.nodes.size + 1 := by simp [create]

variable {kind data}

theorem WellFormed.create (wellFormed : doc.WellFormed) : (doc.create kind data).2.WellFormed where
  mem_iff parent n := by simp [wellFormed.mem_iff]
  once parent := by simpa using wellFormed.once parent
  solid parent n mem := by
    rw [children_create] at mem
    have old := present_iff.mp (present_of_parent? ((wellFormed.mem_iff parent n).mp mem))
    rw [isFragment, kind_create, if_neg (Nat.ne_of_lt old)]
    exact wellFormed.solid parent n mem
  acyclic n := by
    have same : (doc.create kind data).2.Under = doc.Under := by
      funext child parent
      simp [Under]
    rw [same]
    exact wellFormed.acyclic n

theorem WellFormed.eq_of_within (wellFormed : doc.WellFormed) {top n : NodeId} (empty : doc.children top = [])
    (within : doc.Within top n) : top = n := by
  rcases within.cases_tail with same | ⟨child, _, under⟩
  · exact same
  · simpa [empty] using (wellFormed.mem_iff top child).mpr under

theorem WellFormed.placeNew {parent : NodeId} (wellFormed : doc.WellFormed) (room : parent < doc.nodes.size)
    (solid : kind ≠ .fragment) : ((doc.create kind data).2.place parent doc.nodes.size none).WellFormed := by
  have there : ((doc.create kind data).2.node? doc.nodes.size).isSome := by simp [node?_create]
  have roomy : ((doc.create kind data).2.node? parent).isSome := by
    rw [present_iff, size_create]
    exact Nat.lt_succ_of_lt room
  have empty : (doc.create kind data).2.children doc.nodes.size = [] := by
    rw [children_create, children_of_absent (node?_ge doc (Nat.le_refl _))]
  refine wellFormed.create.place roomy there ?_ (fun within => ?_) none
  · simpa [isFragment, kind_create] using solid
  · exact Nat.ne_of_gt room (wellFormed.create.eq_of_within empty within)

theorem WellFormed.modifyNode (wellFormed : doc.WellFormed) (n : NodeId) {f : Node η π → Node η π}
    (kept : ∀ node, (f node).parent = node.parent ∧ (f node).children = node.children ∧ (f node).kind = node.kind) :
    (doc.modifyNode n f).WellFormed := by
  refine wellFormed.congr (fun m => ?_) (fun m => ?_) (fun m => ?_)
  all_goals
    by_cases same : n = m <;> cases found : doc.node? m <;> simp [parent?, children, Document.kind, same, found, kept]

mutual

theorem WellFormed.addTree {doc : Document η π} {parent : NodeId} (wellFormed : doc.WellFormed)
    (room : parent < doc.nodes.size) (tree : Tree) : (addTree parent tree doc).WellFormed := by
  match tree with
  | .text _ | .comment _ => exact wellFormed.placeNew room nofun
  | .element tag svg attributes children =>
    let bare := (doc.create (.element tag svg) "").2.modifyNode doc.nodes.size fun node => { node with attributes }
    have size : bare.nodes.size = doc.nodes.size + 1 := by simp [bare, Document.create, Document.modifyNode]
    have made : bare.WellFormed := wellFormed.create.modifyNode _ fun _ => ⟨rfl, rfl, rfl⟩
    have found : bare.node? doc.nodes.size = some { kind := .element tag svg, attributes } := by
      simp [bare, node?_create]
    have outside : ¬ bare.Within doc.nodes.size parent := fun within =>
      Nat.ne_of_gt room (made.eq_of_within (children_of_node? found) within)
    have placed := made.place (present_iff.mpr (size ▸ Nat.lt_succ_of_lt room)) (by simp [found])
      (by simp [isFragment, kind_of_node? found]) outside none
    have roomy : doc.nodes.size < (bare.place parent doc.nodes.size none).nodes.size := by
      rw [(rearranged_place _ _ _ _).size_eq]
      omega
    exact WellFormed.addTrees placed roomy children

theorem WellFormed.addTrees {doc : Document η π} {parent : NodeId} (wellFormed : doc.WellFormed)
    (room : parent < doc.nodes.size) (trees : List Tree) : (addTrees parent trees doc).WellFormed := by
  match trees with
  | [] => exact wellFormed
  | tree :: trees =>
    obtain ⟨_, planted⟩ := planted_addTree room tree
    exact WellFormed.addTrees (WellFormed.addTree wellFormed room tree) (Nat.lt_of_lt_of_le room planted.size_le) trees

end

theorem WellFormed.ofTrees (wellFormed : doc.WellFormed) (forest : List Tree) : (doc.ofTrees forest).2.WellFormed :=
  WellFormed.addTrees wellFormed.create (by simp [Document.create]) forest

theorem WellFormed.within_extended (wellFormed : doc.WellFormed) (extended : Extended doc next) {top n : NodeId}
    (there : (doc.node? n).isSome) (within : next.Within top n) : doc.Within top n := by
  induction within with
  | refl => exact .refl
  | @tail middle _ _ under ih =>
    have old := present_iff.mp (wellFormed.present_top there ih)
    rw [Under, parent?, extended.node?_eq middle old] at under
    exact ih.tail under

def setInner (doc : Document η π) (n : NodeId) (markup : String) : Document η π :=
  let (fragment, doc) := doc.ofTrees (Markup.read markup).forest
  (doc.replaceChildren n []).append n fragment

theorem WellFormed.setInner (wellFormed : doc.WellFormed) {n : NodeId} (there : (doc.node? n).isSome) (markup : String) :
    (doc.setInner n markup).WellFormed := by
  obtain ⟨_, filled, made, extended, _, found, _⟩ := ofTrees_shows doc (Markup.read markup).forest
  have read : filled.WellFormed := by
    have whole := wellFormed.ofTrees (Markup.read markup).forest
    rwa [made] at whole
  have room : (filled.node? n).isSome := present_iff.mpr (Nat.lt_of_lt_of_le (present_iff.mp there) extended.size_le)
  have same := rearranged_removeAll filled (filled.children n)
  have insertable : (filled.replaceChildren n []).Insertable n doc.nodes.size := by
    refine ⟨same.present.trans room, same.present.trans (by simp [found]), fun within => ?_⟩
    have old := wellFormed.within_extended extended there (within_removeAll within)
    exact Nat.lt_irrefl _ (present_iff.mp (wellFormed.present_top there old))
  have emptied : (filled.replaceChildren n []).WellFormed := read.replaceChildren (by simp)
  rw [Document.setInner, made]
  exact (emptied.insertBefore insertable none).1

end Making

section Copying

variable {n : NodeId} {copies others : List NodeId} {middle : Document η π}

theorem WellFormed.adopt (wellFormed : doc.WellFormed) {top : NodeId} {nodes : List NodeId} (bare : doc.children top = [])
    (free : doc.parent? top = none) (loose : ∀ n ∈ nodes, doc.parent? n = none) (apart : top ∉ nodes) (once : nodes.Nodup)
    (solid : ∀ n ∈ nodes, doc.isFragment n = false)
    (parents : ∀ n, next.parent? n = if n ∈ nodes then some top else doc.parent? n)
    (lists : ∀ n, next.children n = if n = top then nodes else doc.children n)
    (kinds : ∀ n, next.kind n = doc.kind n) : next.WellFormed where
  mem_iff parent n := by
    have nowhere : ∀ m, doc.parent? m ≠ some top := fun m under => by
      simpa [bare] using (wellFormed.mem_iff top m).mpr under
    rw [lists, parents]
    by_cases here : parent = top <;> by_cases given : n ∈ nodes
    · simp [here, given]
    · simp [here, given, nowhere]
    · have other : top ≠ parent := fun same => here same.symm
      simp [here, given, other, wellFormed.mem_iff, loose n given]
    · simp [here, given, wellFormed.mem_iff]
  once parent := by
    rw [lists]
    split
    · exact once
    · exact wellFormed.once parent
  solid parent n mem := by
    rw [isFragment_congr (kinds n)]
    rw [lists] at mem
    split at mem
    · exact solid n mem
    · exact wellFormed.solid parent n mem
  acyclic n cycle := by
    have root : ∀ parent, ¬ next.Under top parent := fun parent under => by
      rw [Under, parents, if_neg apart, free] at under
      cases under
    have step : ∀ {low high}, next.Under low high → high = top ∨ doc.Under low high := fun {low high} under => by
      rw [Under, parents] at under
      split at under
      · exact .inl (Option.some.inj under).symm
      · exact .inr under
    -- A way up that comes to the new parent ends there.
    have old : ∀ {low high}, Relation.TransGen next.Under low high → high = top ∨ Relation.TransGen doc.Under low high := by
      intro low high above
      induction above with
      | single under => exact (step under).imp_right .single
      | tail _ under ih =>
        rcases ih with rfl | ih
        · exact absurd under (root _)
        · exact (step under).imp_right ih.tail
    rcases old cycle with rfl | cycle
    · obtain ⟨_, under, _⟩ := Relation.TransGen.head'_iff.mp cycle
      exact root _ under
    · exact wellFormed.acyclic n cycle

/-- Nodes have been copied: the copies are new and stand nowhere, and the nodes that were there are as they were. -/
structure Duplicated (doc next : Document η π) (nodes copies : List NodeId) : Prop where
  wellFormed : next.WellFormed
  extended : Extended doc next
  fresh : ∀ c ∈ copies, doc.nodes.size ≤ c ∧ c < next.nodes.size ∧ next.parent? c = none
  once : copies.Nodup
  kinds : ∀ c ∈ copies, ∃ n ∈ nodes, next.kind c = doc.kind n

theorem Extended.kind_eq (extended : Extended doc next) (there : n < doc.nodes.size) : next.kind n = doc.kind n := by
  rw [Document.kind, extended.node?_eq n there]
  rfl

theorem Extended.parent?_eq (extended : Extended doc next) (there : n < doc.nodes.size) : next.parent? n = doc.parent? n := by
  rw [Document.parent?, extended.node?_eq n there]
  rfl

structure Minted (doc next : Document η π) (copies : List NodeId) : Prop where
  extended : Extended doc next
  fresh : ∀ c ∈ copies, doc.nodes.size ≤ c ∧ c < next.nodes.size ∧ next.parent? c = none
  once : copies.Nodup

theorem Minted.append (one : Minted doc middle copies)
    (two : Minted middle next others) : Minted doc next (copies ++ others) where
  extended := one.extended.trans two.extended
  fresh c mem := by
    rcases mem_append.mp mem with first | second
    · obtain ⟨low, high, free⟩ := one.fresh c first
      exact ⟨low, Nat.lt_of_lt_of_le high two.extended.size_le, (two.extended.parent?_eq high).trans free⟩
    · obtain ⟨low, high, free⟩ := two.fresh c second
      exact ⟨Nat.le_trans one.extended.size_le low, high, free⟩
  once := nodup_append.mpr ⟨one.once, two.once, fun c first d second same =>
    Nat.lt_irrefl c (Nat.lt_of_lt_of_le (one.fresh c first).2.1 (same ▸ (two.fresh d second).1))⟩

theorem Closed.minted {filled final : Document η π} {node : Node η π} {nodes : List NodeId}
    (closed : Closed doc filled final node nodes) : Minted doc final [doc.nodes.size] where
  extended := closed.extended
  fresh c one := by
    obtain rfl := mem_singleton.mp one
    exact ⟨Nat.le_refl _, lt_size_of_node? closed.copy_eq, parent?_of_node? closed.copy_eq⟩
  once := by simp

theorem Duplicated.minted {nodes : List NodeId} (duplicated : Duplicated doc next nodes copies) :
    Minted doc next copies :=
  { duplicated with }

theorem Duplicated.nil (wellFormed : doc.WellFormed) : Duplicated doc doc [] [] :=
  ⟨wellFormed, .refl doc, by simp, .nil, by simp⟩

theorem Duplicated.append {nodes more : List NodeId}
    (one : Duplicated doc middle nodes copies) (two : Duplicated middle next more others)
    (there : ∀ n ∈ more, n < doc.nodes.size) : Duplicated doc next (nodes ++ more) (copies ++ others) := by
  obtain ⟨extended, fresh, once⟩ := one.minted.append two.minted
  refine ⟨two.wellFormed, extended, fresh, once, fun c mem => ?_⟩
  rcases mem_append.mp mem with first | second
  · obtain ⟨n, given, same⟩ := one.kinds c first
    exact ⟨n, mem_append_left _ given, (two.extended.kind_eq (one.fresh c first).2.1).trans same⟩
  · obtain ⟨n, given, same⟩ := two.kinds c second
    exact ⟨n, mem_append_right _ given, same.trans (one.extended.kind_eq (there n given))⟩

def Duplicates (copyAll : List NodeId → Document η π → List NodeId × Document η π) : Prop :=
  ∀ (doc : Document η π) (nodes : List NodeId), doc.WellFormed → (∀ n ∈ nodes, n < doc.nodes.size) →
    Duplicated doc (copyAll nodes doc).2 nodes (copyAll nodes doc).1

theorem duplicated_copyNode {copyAll : List NodeId → Document η π → List NodeId × Document η π}
    (duplicates : Duplicates copyAll) (copies : List NodeId) (wellFormed : doc.WellFormed) (there : n < doc.nodes.size) :
    ∃ final, copyNode copyAll copies doc n = (copies ++ [doc.nodes.size], final) ∧
      Duplicated doc final [n] [doc.nodes.size] := by
  obtain ⟨node, found⟩ := Option.isSome_iff_exists.mp (present_iff.mpr there)
  let begun := (doc.create node.kind node.data).2
  obtain ⟨nodes, filled, mem⟩ : ∃ nodes filled, copyAll node.children begun = (nodes, filled) := ⟨_, _, rfl⟩
  have size : begun.nodes.size = doc.nodes.size + 1 := size_create _ _
  have last : doc.nodes.size < begun.nodes.size := size ▸ Nat.lt_succ_self _
  have listed : node.children = begun.children n :=
    (children_of_node? (((extended_create doc _ _).node?_eq n there).trans found)).symm
  have present : ∀ m ∈ node.children, m < begun.nodes.size := fun m mem =>
    present_iff.mp (present_of_parent? ((wellFormed.create.mem_iff n m).mp (listed ▸ mem)))
  have inner : Duplicated begun filled node.children nodes := by
    have all := duplicates begun node.children wellFormed.create present
    rwa [mem] at all
  have new : ∀ m ∈ nodes, doc.nodes.size < m := fun m mem => Nat.lt_of_lt_of_le last (inner.fresh m mem).1
  have absent : doc.nodes.size ∉ nodes := fun mem => Nat.lt_irrefl _ (new _ mem)
  have copied : filled.node? doc.nodes.size = some { kind := node.kind, data := node.data } :=
    (inner.extended.node?_eq _ last).trans (by simp [begun, node?_create])
  have bare : filled.children doc.nodes.size = [] := children_of_node? copied
  have free : filled.parent? doc.nodes.size = none := parent?_of_node? copied
  obtain ⟨final, made, closed⟩ := closed_copyNode found mem inner.extended new copies
  have stored : ∀ m, final.parent? m = (if m ∈ nodes then some doc.nodes.size else filled.parent? m) ∧
      final.children m = (if m = doc.nodes.size then nodes else filled.children m) ∧ final.kind m = filled.kind m := by
    intro m
    by_cases here : m = doc.nodes.size
    · subst here
      simp [parent?, children, Document.kind, closed.copy_eq, copied, absent]
    · rw [parent?, children, Document.kind, closed.others m here, if_neg here]
      split
      · rename_i mem
        obtain ⟨_, there⟩ := Option.isSome_iff_exists.mp (present_iff.mpr (inner.fresh m mem).2.1)
        simp [children, Document.kind, there]
      · exact ⟨rfl, rfl, rfl⟩
  obtain ⟨extended, fresh, once⟩ := closed.minted
  refine ⟨final, made, ?_, extended, fresh, once, fun c one => ?_⟩
  · refine inner.wellFormed.adopt bare free (fun m mem => (inner.fresh m mem).2.2) absent inner.once
      (fun m mem => ?_) (fun m => (stored m).1) (fun m => (stored m).2.1) fun m => (stored m).2.2
    obtain ⟨child, member, same⟩ := inner.kinds m mem
    rw [isFragment, same]
    exact wellFormed.create.solid n child (listed ▸ member)
  · obtain rfl := mem_singleton.mp one
    exact ⟨n, by simp, (kind_of_node? closed.copy_eq).trans (kind_of_node? found).symm⟩

theorem duplicates_copyUpTo (fuel : Nat) : Duplicates (copyUpTo fuel : List NodeId → Document η π → _) := by
  induction fuel with
  | zero => exact fun doc nodes wellFormed _ => ⟨wellFormed, .refl doc, by simp [copyUpTo], .nil, by simp [copyUpTo]⟩
  | succ fuel ih =>
    intro doc nodes wellFormed there
    suffices all : ∃ copies next, copyUpTo (fuel + 1) nodes doc = (copies, next) ∧ Duplicated doc next nodes copies by
      obtain ⟨_, _, made, _⟩ := all
      rwa [made]
    refine copyUpTo_all (fun doc nodes => doc.WellFormed ∧ ∀ n ∈ nodes, n < doc.nodes.size) Duplicated
      (fun doc fit => .nil fit.1) (fun doc n nodes before fit => ?_) ⟨wellFormed, there⟩
    obtain ⟨wellFormed, there⟩ := fit
    obtain ⟨middle, here, one⟩ := duplicated_copyNode ih before wellFormed (there n (by simp))
    have others : ∀ m ∈ nodes, m < doc.nodes.size := fun m mem => there m (by simp [mem])
    exact ⟨_, middle, here, ⟨one.wellFormed, fun m mem => Nat.lt_of_lt_of_le (others m mem) one.extended.size_le⟩,
      fun next copies more => one.append more others⟩

theorem WellFormed.copy (wellFormed : doc.WellFormed) (n : NodeId) : (doc.copy n).2.WellFormed :=
  wellFormed.create.modifyNode _ fun _ => ⟨rfl, rfl, rfl⟩

theorem WellFormed.copyDeep (wellFormed : doc.WellFormed) (there : (doc.node? n).isSome) : (doc.copyDeep n).2.WellFormed :=
  (duplicates_copyUpTo (doc.nodes.size + 1) doc [n] wellFormed (by simpa using present_iff.mp there)).wellFormed

end Copying

/-- What putting `n` under `parent` before `mark` does to lists of children: it leaves its old one and comes to stand
right before the mark, or where it was when it is its own mark, or last when no child of the parent is the mark. -/
structure PutBefore (doc next : Document η π) (parent n : NodeId) (mark : Option NodeId) : Prop where
  before : ∀ m left right, mark = some m → m ≠ n → doc.children parent = left ++ m :: right →
    next.children parent = left.filter (· != n) ++ n :: m :: right.filter (· != n)
  own : ∀ left right, mark = some n → doc.children parent = left ++ n :: right →
    next.children parent = left ++ n :: right
  last : (∀ m, mark = some m → m ∉ doc.children parent) →
    next.children parent = (doc.children parent).filter (· != n) ++ [n]
  others : ∀ p, p ≠ parent → next.children p =
    if doc.parent? n = some p then (doc.children p).filter (· != n) else doc.children p

theorem WellFormed.parent?_next (wellFormed : doc.WellFormed) {n : NodeId} (next : doc.next? n = some m) :
    doc.parent? m = doc.parent? n := by
  obtain ⟨_, sides, _⟩ := Option.bind_eq_some_iff.mp next
  obtain ⟨parent, under, _⟩ := Option.bind_eq_some_iff.mp sides
  obtain ⟨left, right, split⟩ := append_of_mem ((wellFormed.mem_iff parent n).mpr under)
  have lists : doc.Lists parent (left ++ n :: right) := split ▸ wellFormed.lists (wellFormed.present under)
  rw [lists.next?] at next
  rw [under]
  exact lists.parents m (by simp [mem_of_mem_head? next])

theorem WellFormed.putBefore (wellFormed : doc.WellFormed) {parent n : NodeId} (room : (doc.node? parent).isSome)
    (solid : doc.isFragment n = false) (mark : Option NodeId) :
    PutBefore doc (doc.insertBefore parent n mark) parent n mark where
  before m left right marked apart split := by
    have lists : doc.Lists parent (left ++ (m :: right)) := split ▸ wellFormed.lists room
    have placed := (lists.insertBefore solid).children_eq
    rw [marked]
    simpa [apart] using placed
  own left right marked split := by
    have lists : doc.Lists parent (left ++ (n :: right)) := split ▸ wellFormed.lists room
    have placed := (lists.insertBefore solid).children_eq
    have once := nodup_middle.mp lists.once
    rw [nodup_cons, mem_append, not_or] at once
    rw [marked]
    simpa [filter_ne_of_not_mem once.1.1, filter_ne_of_not_mem once.1.2] using placed
  last absent := by
    rw [insertBefore_of_solid solid, children_place room, if_pos rfl, (wellFormed.lists room).children_detach]
    refine insertInto_of_not_mem fun m marked mem => ?_
    have listed := mem_of_mem_filter mem
    rw [markFor] at marked
    split at marked
    · rename_i own
      have beside := (wellFormed.parent?_next marked).symm.trans ((wellFormed.mem_iff parent m).mp listed)
      exact absent n own ((wellFormed.mem_iff parent n).mpr beside)
    · exact absent m marked listed
  others p apart := children_insertBefore_of_ne solid room apart mark

inductive Edit where
  | create (kind : Kind) (data : String)
  | append (parent n : NodeId)
  | insertBefore (parent n : NodeId) (mark : Option NodeId)
  | remove (n : NodeId)
  | removeChild (parent n : NodeId)
  | replaceChildren (parent : NodeId) (nodes : List NodeId)
  | setInner (n : NodeId) (markup : String)
  | copy (n : NodeId) (deep : Bool)

namespace Edit

def apply (doc : Document η π) : Edit → Document η π
  | create kind data => (doc.create kind data).2
  | append parent n => doc.append parent n
  | insertBefore parent n mark => doc.insertBefore parent n mark
  | remove n => doc.remove n
  | removeChild parent n => doc.removeChild parent n
  | replaceChildren parent nodes => doc.replaceChildren parent nodes
  | setInner n markup => doc.setInner n markup
  | copy n deep => (if deep then doc.copyDeep n else doc.copy n).2

/-- An edit works on nodes that there are, puts none into itself and reads only markup that can be read. -/
def Allowed (doc : Document η π) : Edit → Prop
  | create _ _ => True
  | append parent n => doc.Insertable parent n
  | insertBefore parent n _ => doc.Insertable parent n
  | remove n => (doc.node? n).isSome
  | removeChild parent n => (doc.node? parent).isSome ∧ (doc.node? n).isSome
  | replaceChildren parent nodes => (doc.node? parent).isSome ∧ ∀ n ∈ nodes, doc.Insertable parent n
  | setInner n markup => (doc.node? n).isSome ∧ (Markup.read markup).complete
  | copy n _ => (doc.node? n).isSome

def AllAllowed (doc : Document η π) : List Edit → Prop
  | [] => True
  | edit :: edits => edit.Allowed doc ∧ AllAllowed (edit.apply doc) edits

end Edit

theorem WellFormed.edited (wellFormed : doc.WellFormed) {edit : Edit} (allowed : edit.Allowed doc) :
    (edit.apply doc).WellFormed := by
  cases edit with
  | create => exact wellFormed.create
  | append => exact (wellFormed.insertBefore allowed none).1
  | insertBefore _ _ mark => exact (wellFormed.insertBefore allowed mark).1
  | remove n => exact wellFormed.remove n
  | removeChild _ n =>
    simp only [Edit.apply, removeChild]
    split
    · exact wellFormed.remove n
    · exact wellFormed
  | replaceChildren => exact wellFormed.replaceChildren allowed.2
  | setInner _ markup => exact wellFormed.setInner allowed.1 markup
  | copy n deep =>
    cases deep with
    | false => exact wellFormed.copy n
    | true => exact wellFormed.copyDeep allowed

theorem WellFormed.edited_all {edits : List Edit} (wellFormed : doc.WellFormed) (allowed : Edit.AllAllowed doc edits) :
    (edits.foldl Edit.apply doc).WellFormed := by
  induction edits generalizing doc with
  | nil => exact wellFormed
  | cons _ _ ih => exact ih (wellFormed.edited allowed.1) allowed.2

/-- However a document was edited, its parents and lists of children agree, no list holds a node twice or a fragment and
nobody is above itself; and whatever is put somewhere next comes to stand right before its mark and leaves the rest in
order. -/
theorem edits_keep_families_together {edits : List Edit} (allowed : Edit.AllAllowed ({} : Document η π) edits) :
    let doc : Document η π := edits.foldl Edit.apply {}
    doc.WellFormed ∧ ∀ parent n mark, (doc.node? parent).isSome → doc.isFragment n = false →
      PutBefore doc (doc.insertBefore parent n mark) parent n mark := by
  have kept := WellFormed.empty.edited_all allowed
  exact ⟨kept, fun parent n mark room solid => kept.putBefore room solid mark⟩

theorem insertable_free {parent n : NodeId} (room : (doc.node? parent).isSome) (there : (doc.node? n).isSome)
    (free : doc.parent? parent = none) (apart : n ≠ parent) : doc.Insertable parent n := by
  refine ⟨room, there, fun within => ?_⟩
  rcases within.cases_head with same | ⟨above, under, _⟩
  · exact apart same.symm
  · rw [Under, free] at under
    cases under

def listEdits : List Edit :=
  [.create (.element "ul" false) "", .create (.element "li" false) "", .create .text "x", .append 1 2, .create .fragment "",
    .append 3 1, .insertBefore 0 3 none, .insertBefore 0 1 (some 1), .copy 0 true, .replaceChildren 4 [2, 1]]

theorem allAllowed_listEdits : Edit.AllAllowed ({} : Document Unit Unit) listEdits := by
  have free : ∀ {doc : Document Unit Unit} {parent n : NodeId}, ((doc.node? parent).isSome ∧ (doc.node? n).isSome ∧
      doc.parent? parent = none ∧ n ≠ parent) → doc.Insertable parent n :=
    fun ⟨room, there, free, apart⟩ => insertable_free room there free apart
  refine ⟨trivial, trivial, trivial, free (by decide), trivial, free (by decide), free (by decide), free (by decide),
    rfl, ⟨by decide, fun n given => ?_⟩, trivial⟩
  rcases mem_pair.mp given with rfl | rfl <;> exact free (by decide)

theorem edits_keep_families_together_list : Edit.AllAllowed ({} : Document Unit Unit) listEdits ∧
      (listEdits.foldl Edit.apply ({} : Document Unit Unit)).WellFormed ∧
      (listEdits.foldl Edit.apply ({} : Document Unit Unit)).children 4 = [2, 1] :=
  ⟨allAllowed_listEdits, (edits_keep_families_together allAllowed_listEdits).1, by decide⟩

end LiveMarkup.Document
