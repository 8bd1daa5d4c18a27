import LiveMarkup.Proofs.Regions

/-!
How much reconciliation does. Its moves are listed in the order in which they are made. Every new node is put somewhere once
at most and every old node taken away once at most; nodes that only go away are taken away and nothing else happens, and a
run is turned round by changing places two by two.
-/

namespace LiveMarkup.Live
open Document List

variable {η π : Type}

/-- One thing that is done to the children of a parent. -/
inductive Move where
  | insert (node : NodeId) (mark : Option NodeId)
  | remove (node : NodeId)
  deriving DecidableEq, Repr

namespace Move

def inserted? : Move → Option NodeId
  | .insert n _ => some n
  | .remove _ => none

def removed? : Move → Option NodeId
  | .insert _ _ => none
  | .remove n => some n

def perform (parent : NodeId) (doc : Document η π) : Move → Document η π
  | .insert n mark => doc.insertBefore parent n mark
  | .remove n => doc.remove n

def insertions (nodes : List NodeId) (mark : Option NodeId) : List Move := nodes.map (.insert · mark)

def removals (nodes : List NodeId) : List Move := nodes.map .remove

def inserted (moves : List Move) : List NodeId := moves.filterMap inserted?

def removed (moves : List Move) : List NodeId := moves.filterMap removed?

def performAll (parent : NodeId) (moves : List Move) (doc : Document η π) : Document η π :=
  moves.foldl (perform parent) doc

section Lists

variable {nodes : List NodeId} {mark : Option NodeId} {moves more : List Move} {parent : NodeId}

@[simp]
theorem inserted_append (moves more : List Move) : inserted (moves ++ more) = inserted moves ++ inserted more :=
  filterMap_append

@[simp]
theorem removed_append (moves more : List Move) : removed (moves ++ more) = removed moves ++ removed more :=
  filterMap_append

@[simp]
theorem inserted_insertions (nodes : List NodeId) (mark : Option NodeId) : inserted (insertions nodes mark) = nodes := by
  induction nodes with
  | nil => rfl
  | cons n _ ih => exact congrArg (n :: ·) ih

@[simp]
theorem removed_insertions (nodes : List NodeId) (mark : Option NodeId) : removed (insertions nodes mark) = [] := by
  induction nodes with
  | nil => rfl
  | cons _ _ ih => exact ih

@[simp]
theorem inserted_removals (nodes : List NodeId) : inserted (removals nodes) = [] := by
  induction nodes with
  | nil => rfl
  | cons _ _ ih => exact ih

@[simp]
theorem removed_removals (nodes : List NodeId) : removed (removals nodes) = nodes := by
  induction nodes with
  | nil => rfl
  | cons n _ ih => exact congrArg (n :: ·) ih

@[simp]
theorem performAll_append (parent : NodeId) (moves more : List Move) (doc : Document η π) :
    performAll parent (moves ++ more) doc = performAll parent more (performAll parent moves doc) :=
  foldl_append

theorem performAll_insertions (parent : NodeId) (nodes : List NodeId) (mark : Option NodeId) (doc : Document η π) :
    performAll parent (insertions nodes mark) doc = nodes.foldl (fun doc n => doc.insertBefore parent n mark) doc :=
  foldl_map

theorem performAll_removals (parent : NodeId) (nodes : List NodeId) (doc : Document η π) :
    performAll parent (removals nodes) doc = doc.removeAll nodes :=
  foldl_map

end Lists
end Move

namespace Runs
open Move

def dropped (runs : Runs) : List NodeId :=
  match runs.places with
  | none => runs.old
  | some places => runs.old.filter fun n => (placeOf? places n).isNone

/-- The moves of a reconciliation, in the order in which they are made. -/
def moves (parent : NodeId) (after : Option NodeId) (runs : Runs) (doc : Document η π) : List Move :=
  match oldEq : runs.old, newEq : runs.new with
  | [], _ => insertions runs.new (runs.insertionMark after doc)
  | _, [] => removals runs.dropped
  | a :: as, b :: bs =>
    let lastOld := (a :: as).getLast (by simp)
    let lastNew := (b :: bs).getLast (by simp)
    if a = b then
      moves parent after
        { runs with
          old := as, new := bs, oldStart := runs.oldStart + 1, newStart := runs.newStart + 1, previous := some b } doc
    else if lastOld = lastNew then
      moves parent after
        { runs with old := (a :: as).dropLast, new := (b :: bs).dropLast, beyond := some lastNew } doc
    else if a = lastNew && b = lastOld then
      let here := [.insert b (doc.next? a), .insert lastNew (doc.next? lastOld)]
      here ++ moves parent after
        { runs with
          old := as.dropLast, new := bs.dropLast, oldStart := runs.oldStart + 1, newStart := runs.newStart + 1
          previous := some b, beyond := some lastNew } (performAll parent here doc)
    else
      let places := runs.places.getD runs.placesOfNew
      let newEnd := runs.newStart + runs.new.length
      let runs := { runs with places := some places }
      match placeOf? places a with
      | none =>
        .remove a :: moves parent after { runs with old := as, oldStart := runs.oldStart + 1 } (doc.remove a)
      | some place =>
        if runs.newStart < place && place < newEnd then
          let ahead := place - runs.newStart
          let stays := 1 + followingRun places (newEnd - (runs.oldStart + 1)) (place + 1) as
          if ahead < stays then
            let moved := (b :: bs).take ahead
            let here := insertions moved (some a)
            here ++ moves parent after
              { runs with old := a :: as, new := bs.drop (ahead - 1), newStart := place, previous := moved.getLast? }
              (performAll parent here doc)
          else
            let here := [.insert b (some a), .remove a]
            here ++ moves parent after
              { runs with
                old := as, new := bs, oldStart := runs.oldStart + 1, newStart := runs.newStart + 1
                previous := some b } (performAll parent here doc)
        else moves parent after { runs with old := as, oldStart := runs.oldStart + 1 } doc
termination_by runs.old.length + runs.new.length
decreasing_by all_goals simp_all +arith <;> omega

section Moves

variable {doc : Document η π} {parent : NodeId} {after : Option NodeId} {runs : Runs}

theorem insertNew_eq : runs.insertNew parent after doc =
    performAll parent (insertions runs.new (runs.insertionMark after doc)) doc := by
  rw [performAll_insertions]
  rfl

theorem removeOld_eq : runs.removeOld doc = performAll parent (removals runs.dropped) doc := by
  rw [performAll_removals, removeOld, dropped]
  cases runs.places <;> rfl

theorem reconcile_eq_performAll :
    runs.reconcile parent after doc = performAll parent (runs.moves parent after doc) doc := by
  fun_induction Runs.moves parent after runs doc with
  | case1 runs _ oldEq =>
    cases runs
    subst oldEq
    rw [Runs.reconcile]
    exact insertNew_eq
  | case2 runs _ newEq left =>
    cases runs with
    | mk old =>
      subst newEq
      cases old with
      | nil => exact absurd rfl left
      | cons =>
        rw [Runs.reconcile]
        exact removeOld_eq
  | case3 runs _ _ _ _ newEq oldEq ih =>
    cases runs
    subst oldEq newEq
    rw [Runs.reconcile]
    exact (if_pos rfl).trans ih
  | case4 runs _ _ _ _ _ oldEq newEq _ _ apart same ih =>
    cases runs
    subst oldEq newEq
    rw [Runs.reconcile]
    exact (if_neg apart).trans ((if_pos same).trans ih)
  | case5 runs _ _ _ _ _ oldEq newEq _ _ apart other crossed _ ih =>
    cases runs
    subst oldEq newEq
    rw [Runs.reconcile, performAll_append, ← ih]
    exact (if_neg apart).trans ((if_neg other).trans (if_pos crossed))
  | case6 runs _ _ _ _ _ oldEq newEq _ _ apart other straight _ _ missing ih =>
    cases runs
    subst oldEq newEq
    rw [Runs.reconcile]
    refine (if_neg apart).trans ((if_neg other).trans ((if_neg straight).trans ?_))
    dsimp only
    rw [missing]
    exact ih
  | case7 runs doc a as b bs oldEq newEq lastOld lastNew apart other straight places newEnd runs' place found mem ahead stays
      short moved here ih =>
    cases runs
    subst oldEq newEq
    rw [Runs.reconcile, performAll_append, ← ih]
    refine (if_neg apart).trans ((if_neg other).trans ((if_neg straight).trans ?_))
    dsimp only
    rw [found]
    refine (if_pos mem).trans ((if_pos short).trans ?_)
    rw [performAll_insertions]
  | case8 runs doc a as b bs oldEq newEq lastOld lastNew apart other straight places newEnd runs' place found mem ahead stays
      long here ih =>
    cases runs
    subst oldEq newEq
    rw [Runs.reconcile, performAll_append, ← ih]
    refine (if_neg apart).trans ((if_neg other).trans ((if_neg straight).trans ?_))
    dsimp only
    rw [found]
    exact (if_pos mem).trans (if_neg long)
  | case9 runs _ _ _ _ _ oldEq newEq _ _ apart other straight _ _ _ _ found outside ih =>
    cases runs
    subst oldEq newEq
    rw [Runs.reconcile]
    refine (if_neg apart).trans ((if_neg other).trans ((if_neg straight).trans ?_))
    dsimp only
    rw [found]
    exact (if_neg outside).trans ih

theorem dropped_sublist (runs : Runs) : runs.dropped.Sublist runs.old := by
  unfold dropped
  split
  · exact .refl _
  · exact filter_sublist

theorem removed_sublist : (removed (runs.moves parent after doc)).Sublist runs.old := by
  fun_induction Runs.moves parent after runs doc with
  | case1 => simp
  | case2 runs => simpa using dropped_sublist runs
  | case3 _ _ _ b _ _ oldEq ih => exact oldEq ▸ ih.cons b
  | case4 _ _ _ _ _ _ oldEq _ _ _ _ _ ih =>
    exact oldEq ▸ ih.trans (dropLast_sublist _)
  | case5 _ _ a as _ _ oldEq _ _ _ _ _ _ _ ih =>
    rw [removed_append, oldEq]
    exact (ih.trans (dropLast_sublist as)).cons a
  | case6 _ _ a _ _ _ oldEq _ _ _ _ _ _ _ _ _ ih =>
    exact oldEq ▸ ih.cons_cons a
  | case7 runs doc a as b bs oldEq newEq lastOld lastNew apart other straight places newEnd runs' place found mem ahead stays
      short moved here ih =>
    rw [removed_append, removed_insertions, oldEq]
    exact ih
  | case8 runs doc a as b bs oldEq newEq lastOld lastNew apart other straight places newEnd runs' place found mem ahead stays
      long here ih =>
    rw [removed_append, oldEq]
    exact ih.cons_cons a
  | case9 _ _ a _ _ _ oldEq _ _ _ _ _ _ _ _ _ _ _ _ ih =>
    exact oldEq ▸ ih.cons a

theorem inserted_subperm : (inserted (runs.moves parent after doc)).Subperm runs.new := by
  fun_induction Runs.moves parent after runs doc with
  | case1 runs => simpa using Subperm.refl runs.new
  | case2 => simp
  | case3 _ _ _ b _ newEq _ ih => exact newEq ▸ ih.cons_right b
  | case4 _ _ _ _ _ _ _ newEq _ _ _ _ ih =>
    exact newEq ▸ ih.trans (dropLast_sublist _).subperm
  | case5 _ _ a _ b bs _ newEq lastOld lastNew apart _ crossed _ ih =>
    obtain ⟨same, -⟩ : a = lastNew ∧ b = lastOld := by simpa using crossed
    have long : bs ≠ [] := by
      rintro rfl
      exact apart same
    have last : bs.dropLast ++ [lastNew] = bs := by
      simp only [lastNew, getLast_cons long, dropLast_append_getLast]
    rw [inserted_append, newEq]
    refine (subperm_cons b).mpr (((subperm_cons lastNew).mpr ih).trans ?_)
    exact (perm_append_singleton lastNew bs.dropLast).symm.subperm.trans (by rw [last])
  | case6 _ _ _ _ _ _ _ _ _ _ _ _ _ _ _ _ ih => exact ih
  | case7 runs doc a as b bs oldEq newEq lastOld lastNew apart other straight places newEnd runs' place found mem ahead stays
      short moved here ih =>
    have split : b :: bs = moved ++ bs.drop (ahead - 1) := by
      have positive : 0 < ahead := by
        have mem : runs'.newStart < place ∧ place < newEnd := by simpa using mem
        omega
      obtain ⟨k, steps⟩ : ∃ k, ahead = k + 1 := ⟨ahead - 1, by omega⟩
      simp [moved, steps]
    rw [inserted_append, inserted_insertions, newEq, split]
    exact (subperm_append_left moved).mpr ih
  | case8 runs doc a as b bs oldEq newEq lastOld lastNew apart other straight places newEnd runs' place found mem ahead stays
      long here ih =>
    rw [inserted_append, newEq]
    exact (subperm_cons b).mpr ih
  | case9 _ _ _ _ _ _ _ _ _ _ _ _ _ _ _ _ _ _ _ ih => exact ih

end Moves

section Dropping

variable {as bs : List NodeId} {a b : NodeId}

/-- The new nodes are old nodes in their order, and those of the old ones that have a place are new nodes still left. -/
structure Dropping (runs : Runs) : Prop where
  once : runs.old.Nodup
  sublist : runs.new.Sublist runs.old
  placed : ∀ places ∈ runs.places, ∀ n ∈ runs.old, (placeOf? places n).isSome → n ∈ runs.new

variable {doc : Document η π} {parent : NodeId} {after : Option NodeId} {runs : Runs}

theorem mem_of_placesOfNew {n : NodeId} (found : (placeOf? runs.placesOfNew n).isSome) : n ∈ runs.new := by
  obtain ⟨_, place⟩ := Option.isSome_iff_exists.mp found
  have mem := mem_reverse.mp (mem_of_placeOf? place)
  rw [mem_zipIdx_iff_le_and_getElem?_sub] at mem
  exact mem_of_getElem? mem.2

theorem first_goes (once : (a :: as).Nodup) (sublist : (b :: bs).Sublist (a :: as)) (apart : a ≠ b) :
    (b :: bs).Sublist as ∧ a ∉ b :: bs := by
  have behind : (b :: bs).Sublist as := by
    cases sublist with
    | cons _ behind => exact behind
    | cons_cons => exact absurd rfl apart
  exact ⟨behind, fun mem => (nodup_cons.mp once).1 (behind.subset mem)⟩

theorem Dropping.located (dropping : Dropping runs) :
    ∀ n ∈ runs.old, (placeOf? (runs.places.getD runs.placesOfNew) n).isSome → n ∈ runs.new := by
  intro n mem found
  cases known : runs.places with
  | none => exact mem_of_placesOfNew (by rwa [known] at found)
  | some places => exact dropping.placed places known n mem (by rwa [known] at found)

theorem Dropping.missing (dropping : Dropping runs) (oldEq : runs.old = a :: as) (newEq : runs.new = b :: bs) (apart : a ≠ b)
    (place : Nat) : placeOf? (runs.places.getD runs.placesOfNew) a ≠ some place := by
  intro found
  have goes := first_goes (oldEq ▸ dropping.once) (oldEq ▸ newEq ▸ dropping.sublist) apart
  exact goes.2 (newEq ▸ dropping.located a (oldEq ▸ mem_cons_self) (found ▸ rfl))

theorem Dropping.moves_eq (dropping : Dropping runs) :
    runs.moves parent after doc = removals (runs.old.filter (· ∉ runs.new)) := by
  fun_induction Runs.moves parent after runs doc with
  | case1 _ _ oldEq =>
    have sublist := dropping.sublist
    rw [oldEq, sublist_nil] at sublist
    rw [sublist, oldEq]
    rfl
  | case2 runs _ newEq left =>
    have all : runs.dropped = runs.old := by
      unfold dropped
      split
      · rfl
      · rename_i places known
        refine filter_eq_self.mpr fun n mem => ?_
        rw [Option.isNone_iff_eq_none, ← Option.not_isSome_iff_eq_none]
        intro found
        have left := dropping.placed places known n mem found
        rw [newEq] at left
        cases left
    rw [all, newEq, filter_eq_self.mpr (by simp)]
  | case3 _ _ as b bs newEq oldEq ih =>
    obtain ⟨once, sublist, placed⟩ := dropping
    rw [oldEq, newEq] at sublist placed
    rw [oldEq] at once
    have fresh := (nodup_cons.mp once).1
    have other (n : NodeId) (mem : n ∈ as) : n ≠ b := fun same => fresh (same ▸ mem)
    have next := ih ⟨once.of_cons, cons_sublist_cons.mp sublist, fun places known n mem found =>
      (mem_cons.mp (placed places known n (mem_cons_of_mem b mem) found)).resolve_left (other n mem)⟩
    have kept : as.filter (· ∉ b :: bs) = as.filter (· ∉ bs) := filter_congr fun n mem => by simp [other n mem]
    rw [next, oldEq, newEq, filter_cons_of_neg (by simp), kept]
  | case4 runs _ a as b bs oldEq newEq lastOld lastNew _ same ih =>
    obtain ⟨once, sublist, placed⟩ := dropping
    have oldSplit : runs.old = (a :: as).dropLast ++ [lastOld] := oldEq.trans dropLast_append_last.symm
    have newSplit : runs.new = (b :: bs).dropLast ++ [lastOld] := by
      rw [newEq, show lastOld = lastNew from same]
      exact dropLast_append_last.symm
    rw [oldSplit, newSplit] at sublist placed
    rw [oldSplit] at once
    have other (n : NodeId) (mem : n ∈ (a :: as).dropLast) : n ≠ lastOld := fun same =>
      (nodup_append.mp once).2.2 n mem lastOld (mem_singleton_self _) same
    have next := ih ⟨(nodup_append.mp once).1, (append_sublist_append_right _).mp sublist, fun places known n mem found =>
      (mem_append.mp (placed places known n (mem_append_left _ mem) found)).resolve_right
        (by simpa using other n mem)⟩
    have kept : (a :: as).dropLast.filter (· ∉ (b :: bs).dropLast ++ [lastOld]) = (a :: as).dropLast.filter (· ∉ (b :: bs).dropLast) :=
      filter_congr fun n mem => by simp [other n mem]
    rw [next, oldSplit, newSplit, filter_append, kept]
    simp
  | case5 _ _ a _ b _ oldEq newEq lastOld lastNew apart _ crossed =>
    obtain ⟨same, -⟩ : a = lastNew ∧ b = lastOld := by simpa using crossed
    have goes := first_goes (oldEq ▸ dropping.once) (oldEq ▸ newEq ▸ dropping.sublist) apart
    exact absurd (same ▸ getLast_mem _) goes.2
  | case6 _ _ a _ _ _ oldEq newEq _ _ apart _ _ _ runs' _ ih =>
    have once := oldEq ▸ dropping.once
    obtain ⟨behind, gone⟩ := first_goes once (oldEq ▸ newEq ▸ dropping.sublist) apart
    have next := ih ⟨once.of_cons, by simpa [runs', newEq] using behind, fun known same n mem found => by
      obtain rfl := Option.some.inj same
      exact dropping.located n (oldEq ▸ mem_cons_of_mem a mem) found⟩
    rw [next, oldEq, filter_cons_of_pos (by simpa [newEq] using gone)]
    rfl
  | case7 runs doc a as b bs oldEq newEq lastOld lastNew apart other straight places newEnd runs' place found mem ahead stays
      short moved here ih =>
    exact absurd found (dropping.missing oldEq newEq apart place)
  | case8 runs doc a as b bs oldEq newEq lastOld lastNew apart other straight places newEnd runs' place found mem ahead stays
      long here ih =>
    exact absurd found (dropping.missing oldEq newEq apart place)
  | case9 _ _ _ _ _ _ oldEq newEq _ _ apart _ _ _ _ _ place found =>
    exact absurd found (dropping.missing oldEq newEq apart place)

end Dropping

section Turning

variable {doc : Document η π} {parent : NodeId} {after : Option NodeId} {runs : Runs}

theorem ends_of_reverse {a b : NodeId} {as bs : List NodeId} (turned : b :: bs = (a :: as).reverse) :
    a = (b :: bs).getLast (cons_ne_nil b bs) ∧ b = (a :: as).getLast (cons_ne_nil a as) := by
  constructor
  · simp only [turned, getLast_reverse, head_cons]
  · have back : a :: as = (b :: bs).reverse := by rw [turned, reverse_reverse]
    simp only [back, getLast_reverse, head_cons]

theorem moves_of_reverse (once : runs.old.Nodup) (turned : runs.new = runs.old.reverse) :
    removed (runs.moves parent after doc) = [] ∧ (inserted (runs.moves parent after doc)).length = 2 * (runs.old.length / 2) := by
  fun_induction Runs.moves parent after runs doc with
  | case1 _ _ oldEq =>
    rw [turned, oldEq]
    exact ⟨rfl, rfl⟩
  | case2 _ _ newEq left =>
    rw [newEq, nil_eq, reverse_eq_nil_iff] at turned
    exact absurd turned left
  | case3 _ _ as _ bs newEq oldEq ih =>
    rw [oldEq, newEq] at turned
    rw [oldEq] at once
    -- the run ends where it begins, so that nothing else is in it
    have alone : as = [] := by
      by_contra long
      have last := (ends_of_reverse turned).2
      rw [getLast_cons long] at last
      exact (nodup_cons.mp once).1 (last ▸ getLast_mem long)
    subst alone
    obtain rfl : bs = [] := by simpa using turned
    simpa [oldEq] using ih nodup_nil rfl
  | case4 _ _ _ _ _ _ oldEq newEq _ _ apart same =>
    rw [oldEq, newEq] at turned
    have ends := ends_of_reverse turned
    exact absurd (ends.1.trans (same.symm.trans ends.2.symm)) apart
  | case5 _ _ a as b bs oldEq newEq _ _ apart _ _ _ ih =>
    rw [oldEq, newEq] at turned
    rw [oldEq] at once
    have ends := ends_of_reverse turned
    have long : as ≠ [] := by
      rintro rfl
      exact apart ends.2.symm
    have split : as = as.dropLast ++ [b] := by
      have last : as.getLast long = b := by rw [ends.2, getLast_cons long]
      rw [← last, dropLast_append_getLast]
    have inner : bs.dropLast = as.dropLast.reverse := by
      rw [reverse_cons, split, reverse_append] at turned
      obtain rfl : bs = as.dropLast.reverse ++ [a] := by simpa using turned
      rw [dropLast_concat]
    obtain ⟨gone, size⟩ := ih (once.of_cons.sublist (dropLast_sublist as)) inner
    have longer : as.length = as.dropLast.length + 1 := by rw [split]; simp
    refine ⟨by rw [removed_append, gone]; rfl, ?_⟩
    rw [inserted_append, length_append, size, oldEq, length_cons, longer]
    show 2 + 2 * (as.dropLast.length / 2) = _
    omega
  | case6 _ _ _ _ _ _ oldEq newEq _ _ _ _ straight | case7 _ _ _ _ _ _ oldEq newEq _ _ _ _ straight =>
    rw [oldEq, newEq] at turned
    exact absurd (by simpa using ends_of_reverse turned) straight
  | case8 _ _ _ _ _ _ oldEq newEq _ _ _ _ straight | case9 _ _ _ _ _ _ oldEq newEq _ _ _ _ straight =>
    rw [oldEq, newEq] at turned
    exact absurd (by simpa using ends_of_reverse turned) straight

end Turning

end Runs

section Counting

variable {doc : Document η π} {parent : NodeId} {pre old new post : List NodeId} {n : NodeId}

theorem changes_detach (doc : Document η π) (n : NodeId) : (doc.detach n).changes = doc.changes := by
  unfold detach
  split <;> rfl

theorem changes_insertBefore (solid : doc.isFragment n = false) (mark : Option NodeId) :
    (doc.insertBefore parent n mark).changes = { doc.changes with inserted := doc.changes.inserted + 1 } := by
  rw [insertBefore_of_solid solid]
  show ({ (doc.detach n).changes with inserted := (doc.detach n).changes.inserted + 1 } : Changes) = _
  rw [changes_detach]

theorem changes_remove (stands : doc.parent? n = some parent) :
    (doc.remove n).changes = { doc.changes with removed := doc.changes.removed + 1 } := by
  unfold remove
  rw [stands]
  show ({ (doc.detach n).changes with removed := (doc.detach n).changes.removed + 1 } : Changes) = _
  rw [changes_detach]

theorem created_remove (doc : Document η π) (n : NodeId) : (doc.remove n).changes.created = doc.changes.created := by
  unfold remove
  split
  · rfl
  · show (doc.detach n).changes.created = _
    rw [changes_detach]

theorem changes_removeAll {gone : List NodeId} (once : gone.Nodup) (stand : ∀ n ∈ gone, doc.parent? n = some parent) :
    (doc.removeAll gone).changes = { doc.changes with removed := doc.changes.removed + gone.length } := by
  induction gone generalizing doc with
  | nil => rfl
  | cons n gone ih =>
    obtain ⟨fresh, once⟩ := nodup_cons.mp once
    have stay : ∀ m ∈ gone, (doc.remove n).parent? m = some parent := fun m mem => by
      rw [parent?_remove, if_neg (by rintro rfl; exact fresh mem)]
      exact stand m (mem_cons_of_mem n mem)
    show ((doc.remove n).removeAll gone).changes = _
    rw [ih once stay, changes_remove (stand n mem_cons_self), length_cons, Nat.add_comm gone.length, ← Nat.add_assoc]

theorem created_performAll {moves : List Move} (solid : ∀ n ∈ Move.inserted moves, doc.isFragment n = false) :
    (Move.performAll parent moves doc).changes.created = doc.changes.created := by
  induction moves generalizing doc with
  | nil => rfl
  | cons move moves ih =>
    cases move with
    | insert n mark =>
      have here : doc.isFragment n = false := solid n mem_cons_self
      have later : (Move.performAll parent moves (doc.insertBefore parent n mark)).changes.created = _ := ih fun m mem =>
        (isFragment_insertBefore here parent m mark).trans (solid m (mem_cons_of_mem n mem))
      rw [changes_insertBefore here] at later
      exact later
    | remove n =>
      refine (ih fun m mem => ?_).trans (created_remove doc n)
      show (doc.remove n).isFragment m = false
      rw [isFragment, kind_remove]
      exact solid m mem

theorem changes_performAll {moves : List Move} (solid : ∀ n ∈ Move.inserted moves, doc.isFragment n = false)
    (stay : Move.removed moves = []) : (Move.performAll parent moves doc).changes =
      { doc.changes with inserted := doc.changes.inserted + (Move.inserted moves).length } := by
  induction moves generalizing doc with
  | nil => rfl
  | cons move moves ih =>
    cases move with
    | insert n mark =>
      have here : doc.isFragment n = false := solid n mem_cons_self
      have later : (Move.performAll parent moves (doc.insertBefore parent n mark)).changes = _ := ih (fun m mem =>
        (isFragment_insertBefore here parent m mark).trans (solid m (mem_cons_of_mem n mem))) stay
      refine later.trans ?_
      rw [changes_insertBefore here, show Move.inserted (.insert n mark :: moves) = n :: Move.inserted moves from rfl,
        length_cons, Nat.add_right_comm, Nat.add_assoc]
    | remove => cases stay

theorem length_filter_of_sublist (once : old.Nodup) (sublist : new.Sublist old) :
    (old.filter (· ∉ new)).length = old.length - new.length := by
  have kept : (old.filter (· ∈ new)).length = new.length := by
    refine Perm.length_eq ((perm_ext_iff_of_nodup (once.filter _) (once.sublist sublist)).mpr fun n => ?_)
    simpa using fun mem => sublist.subset mem
  have whole := length_eq_length_filter_add (l := old) (· ∈ new)
  simp only [← decide_not] at whole
  omega

/-- Reconciliation is a list of moves in which every new node is put somewhere once at most and every old node taken
away once at most, and it makes no node. When nodes only go away, it takes away those and does nothing else; to turn a
run round takes two insertions for every two nodes and no removal. -/
theorem reconcile_moves_little {after : Option NodeId} (lists : doc.Lists parent (pre ++ old ++ post)) (once : new.Nodup)
    (solid : ∀ n ∈ new, doc.isFragment n = false) :
    let moves := Runs.moves parent after { old, new } doc
    let result := reconcile parent old new after doc
    result = Move.performAll parent moves doc ∧
      result.nodes.size = doc.nodes.size ∧ result.changes.created = doc.changes.created ∧
      (Move.inserted moves).Nodup ∧ Move.inserted moves ⊆ new ∧
      (Move.removed moves).Nodup ∧ Move.removed moves ⊆ old ∧
      (new.Sublist old → moves = Move.removals (old.filter (· ∉ new)) ∧
        result.changes = { doc.changes with removed := doc.changes.removed + (old.length - new.length) }) ∧
      (new = old.reverse →
        result.changes = { doc.changes with inserted := doc.changes.inserted + 2 * (old.length / 2) }) := by
  intro moves result
  have result_eq : result = Move.performAll parent moves doc := Runs.reconcile_eq_performAll
  have few : (Move.inserted moves).Subperm new := Runs.inserted_subperm
  have gone : (Move.removed moves).Sublist old := Runs.removed_sublist
  have oldOnce : old.Nodup := (nodup_append.mp (nodup_append.mp lists.once).1).2.1
  have solidMoves : ∀ n ∈ Move.inserted moves, doc.isFragment n = false := fun n inside => solid n (few.subset inside)
  refine ⟨result_eq, (rearranged_reconcile parent old new after doc).size_eq, ?_, ?_, few.subset, oldOnce.sublist gone, gone.subset,
    fun sublist => ?_, fun turned => ?_⟩
  · rw [result_eq, created_performAll solidMoves]
  · obtain ⟨kept, same, sublist⟩ := few
    exact same.nodup_iff.mp (once.sublist sublist)
  · have moves_eq : moves = Move.removals (old.filter (· ∉ new)) :=
      Runs.Dropping.moves_eq ⟨oldOnce, sublist, fun _ none => by cases none⟩
    have stand : ∀ n ∈ old.filter (· ∉ new), doc.parent? n = some parent := fun n inside =>
      lists.parents n (by simp [(mem_filter.mp inside).1])
    refine ⟨moves_eq, ?_⟩
    rw [result_eq, moves_eq, Move.performAll_removals, changes_removeAll (oldOnce.filter _) stand,
      length_filter_of_sublist oldOnce sublist]
  · obtain ⟨stay, size⟩ : Move.removed moves = [] ∧ (Move.inserted moves).length = 2 * (old.length / 2) :=
      Runs.moves_of_reverse oldOnce turned
    rw [result_eq, changes_performAll solidMoves stay, size]

/-- Of three items the middle one goes away, they are turned round, and one of them and an item of the other list come to
stand in their places. -/
theorem reconcile_moves_little_items : (reconcile 0 [2, 3, 4] [2, 4] (some 5) twoLists).changes = ⟨0, 0, 1⟩ ∧
      (reconcile 0 [2, 3, 4] [4, 3, 2] (some 5) twoLists).changes = ⟨0, 2, 0⟩ ∧
      (Move.inserted (Runs.moves 0 (some 5) { old := [2, 3, 4], new := [4, 7, 2] } twoLists)).Nodup := by
  have dropped := @reconcile_moves_little _ _ twoLists 0 [1] [2, 3, 4] [2, 4] [5] (some 5) twoLists_lists (by decide) (by decide)
  have turned := @reconcile_moves_little _ _ twoLists 0 [1] [2, 3, 4] [4, 3, 2] [5] (some 5) twoLists_lists (by decide) (by decide)
  have mixed := @reconcile_moves_little _ _ twoLists 0 [1] [2, 3, 4] [4, 7, 2] [5] (some 5) twoLists_lists (by decide) (by decide)
  exact ⟨(dropped.2.2.2.2.2.2.2.1 (by decide)).2, turned.2.2.2.2.2.2.2.2 rfl, mixed.2.2.2.1⟩

end Counting
end LiveMarkup.Live
