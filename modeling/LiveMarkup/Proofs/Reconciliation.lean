import LiveMarkup.Live.Reconcile
import LiveMarkup.Proofs.Arrangement

/-!
Reconciliation gives a parent the new run of children. At every moment the children are, from left to right: what
stood before the run, the new nodes that are done in front, the old nodes that are left and not among those, the new
nodes that are done behind, and what stood behind the run. `Progress` says so, every branch of the loop keeps it, and
at the end nothing is left between the two parts that are done.
-/

namespace LiveMarkup.Live
open Document
open List hiding removeAll

variable {η π : Type} {a : NodeId}

structure Replacement (start : Document η π) (parent : NodeId) (pre old new post : List NodeId) : Prop where
  lists : start.Lists parent (pre ++ old ++ post)
  once : new.Nodup
  solid : ∀ n ∈ new, start.isFragment n = false
  inner : ∀ n ∈ new, n ∉ pre ∧ n ∉ post

def waiting (front left : List NodeId) : List NodeId := left.filter (· ∉ front)

/-- What is known of the place of an old node that is left: without places it is not done, and with places
they say whether and where it is among the new nodes. -/
def PlaceKnown (new front : List NodeId) (places : Option (List (NodeId × Nat))) (n : NodeId) : Prop :=
  match places with
  | none => n ∉ front
  | some places =>
    (Runs.placeOf? places n = none → n ∉ new) ∧ ∀ i, Runs.placeOf? places n = some i → new[i]? = some n

/-- The state of a reconciliation: `front` and `back` are done, `left` is left of the old nodes and `right` of the new. -/
structure Progress (start : Document η π) (parent : NodeId) (pre old new post front left right back : List NodeId)
    (places : Option (List (NodeId × Nat))) (doc : Document η π) : Prop where
  new_eq : new = front ++ right ++ back
  left_once : left.Nodup
  left_old : ∀ n ∈ left, n ∈ old
  left_back : ∀ n ∈ left, n ∉ back
  known : ∀ n ∈ left, PlaceKnown new front places n
  lists : doc.Lists parent (pre ++ front ++ (waiting front left ++ back ++ post))
  parent?_eq : ∀ n, doc.parent? n =
    if n ∈ front ∨ n ∈ left ∨ n ∈ back then some parent else if n ∈ old then none else start.parent? n
  elsewhere : ∀ m, m ≠ parent → doc.children m =
    (start.children m).filter fun n => !decide ((n ∈ front ∨ n ∈ back) ∧ start.parent? n = some m)
  kind_eq : ∀ n, doc.kind n = start.kind n

section Waiting

variable {front left : List NodeId} {n : NodeId}

theorem waiting_cons (absent : n ∉ front) : waiting front (n :: left) = n :: waiting front left := by
  simp [waiting, absent]

theorem waiting_cons_done (mem : n ∈ front) : waiting front (n :: left) = waiting front left := by
  simp [waiting, mem]

theorem waiting_append (front left more : List NodeId) :
    waiting front (left ++ more) = waiting front left ++ waiting front more := by
  simp [waiting]

theorem waiting_done_more (front left : List NodeId) (n : NodeId) :
    waiting (front ++ [n]) left = (waiting front left).filter (· != n) := by
  unfold waiting
  rw [filter_filter]
  apply filter_congr
  intro m _
  by_cases same : m = n <;> simp [same]

theorem waiting_done_absent (absent : n ∉ left) : waiting (front ++ [n]) left = waiting front left := by
  rw [waiting_done_more]
  exact filter_ne_of_not_mem fun mem => absent (mem_filter.mp mem).1

end Waiting

namespace Progress

variable {start doc : Document η π} {parent : NodeId} {pre old new post front left right back : List NodeId}
  {places : Option (List (NodeId × Nat))}
variable {n : NodeId}

section

variable (progress : Progress start parent pre old new post front left right back places doc)
include progress

theorem solid (task : Replacement start parent pre old new post) {n : NodeId} (mem : n ∈ new) :
    doc.isFragment n = false := by
  have given := task.solid n mem
  simpa only [isFragment, progress.kind_eq n] using given

theorem mem_new (mem : n ∈ right) : n ∈ new := by
  rw [progress.new_eq]
  simp [mem]

theorem right_fresh (task : Replacement start parent pre old new post) (mem : n ∈ right) : n ∉ front ∧ n ∉ back := by
  have once := task.once
  rw [progress.new_eq, append_assoc, nodup_append, nodup_append] at once
  exact ⟨fun h => once.2.2 n h n (by simp [mem]) rfl, fun h => once.2.1.2.2 n mem n h rfl⟩

end

theorem start_of (task : Replacement start parent pre old new post) :
    Progress start parent pre old new post [] old new [] none start where
  new_eq := by simp
  left_once := by
    have once := task.lists.once
    rw [append_assoc, nodup_append, nodup_append] at once
    exact once.2.1.1
  left_old := fun n mem => mem
  left_back := by simp
  known := by simp [PlaceKnown]
  lists := by simpa [waiting] using task.lists
  parent?_eq := by
    intro n
    by_cases mem : n ∈ old
    · simp [mem, task.lists.parents n (by simp [mem])]
    · simp [mem]
  elsewhere := by simp
  kind_eq := fun _ => rfl

theorem elsewhere_done (progress : Progress start parent pre old new post front left right back places doc)
    (task : Replacement start parent pre old new post) (mem : n ∈ old) {front' back' : List NodeId}
    (done : ∀ k, k ≠ n → (k ∈ front' ∨ k ∈ back' ↔ k ∈ front ∨ k ∈ back)) (m : NodeId) (apart : m ≠ parent) :
    doc.children m = (start.children m).filter fun k => !decide ((k ∈ front' ∨ k ∈ back') ∧ start.parent? k = some m) := by
  rw [progress.elsewhere m apart]
  refine filter_congr fun k _ => ?_
  have stood : start.parent? n = some parent := task.lists.parents n (by simp [mem])
  by_cases same : k = n
  · subst same
    simp [stood, Ne.symm apart]
  · simp [done k same]

theorem keepFront (progress : Progress start parent pre old new post front (n :: left) (n :: right) back places doc)
    (task : Replacement start parent pre old new post) :
    Progress start parent pre old new post (front ++ [n]) left right back places doc := by
  have fresh := (progress.right_fresh task (mem_cons_self)).1
  have once := nodup_cons.mp progress.left_once
  refine ⟨?_, once.2, ?_, ?_, ?_, ?_, ?_, ?_, progress.kind_eq⟩
  · simpa using progress.new_eq
  · exact fun m mem => progress.left_old m (by simp [mem])
  · exact fun m mem => progress.left_back m (by simp [mem])
  · intro m mem
    have given := progress.known m (by simp [mem])
    cases places with
    | none =>
      have apart : m ≠ n := fun same => once.1 (same ▸ mem)
      simpa [PlaceKnown, apart] using given
    | some places => exact given
  · have lists := progress.lists
    rw [waiting_cons fresh] at lists
    rw [waiting_done_absent once.1]
    simpa using lists
  · intro m
    rw [progress.parent?_eq m]
    by_cases same : m = n <;> simp [same]
  · exact progress.elsewhere_done task (progress.left_old n (by simp)) (by simp +contextual)

theorem keepBack (progress : Progress start parent pre old new post front (left ++ [n]) (right ++ [n]) back places doc)
    (task : Replacement start parent pre old new post) :
    Progress start parent pre old new post front left right (n :: back) places doc := by
  have fresh := (progress.right_fresh task (n := n) (by simp)).1
  have once := nodup_append.mp progress.left_once
  refine ⟨?_, once.1, ?_, ?_, ?_, ?_, ?_, ?_, progress.kind_eq⟩
  · simpa using progress.new_eq
  · exact fun m mem => progress.left_old m (by simp [mem])
  · intro m mem
    have apart : m ≠ n := once.2.2 m mem n (by simp)
    simpa [apart] using progress.left_back m (by simp [mem])
  · exact fun m mem => progress.known m (by simp [mem])
  · have lists := progress.lists
    rw [waiting_append, waiting_cons fresh] at lists
    simpa [waiting] using lists
  · intro m
    rw [progress.parent?_eq m]
    by_cases same : m = n <;> simp [same]
  · exact progress.elsewhere_done task (progress.left_old n (by simp)) (by simp +contextual)

theorem pass (progress : Progress start parent pre old new post front (n :: left) right back places doc) (done : n ∈ front) :
    Progress start parent pre old new post front left right back places doc := by
  refine ⟨progress.new_eq, (nodup_cons.mp progress.left_once).2, ?_, ?_, ?_, ?_, ?_, progress.elsewhere,
    progress.kind_eq⟩
  · exact fun m mem => progress.left_old m (by simp [mem])
  · exact fun m mem => progress.left_back m (by simp [mem])
  · exact fun m mem => progress.known m (by simp [mem])
  · simpa [waiting_cons_done done] using progress.lists
  · intro m
    rw [progress.parent?_eq m]
    by_cases same : m = n <;> simp [same, done]

theorem take (progress : Progress start parent pre old new post front (n :: left) right back places doc) (waits : n ∉ front) :
    Progress start parent pre old new post front left right back places (doc.remove n) := by
  have once := nodup_cons.mp progress.left_once
  have stands : doc.parent? n = some parent := by simp [progress.parent?_eq n]
  have behind : n ∉ back := progress.left_back n mem_cons_self
  refine ⟨progress.new_eq, once.2, ?_, ?_, ?_, ?_, ?_, ?_, ?_⟩
  · exact fun m mem => progress.left_old m (by simp [mem])
  · exact fun m mem => progress.left_back m (by simp [mem])
  · exact fun m mem => progress.known m (by simp [mem])
  · have lists := progress.lists
    rw [waiting_cons waits] at lists
    have once := lists.once
    have removed := lists.remove n
    have apart : n ∉ pre ++ front ++ (waiting front left ++ back ++ post) := by
      have moved := nodup_middle.mp (by simpa using once :
        ((pre ++ front) ++ n :: (waiting front left ++ back ++ post)).Nodup)
      exact (nodup_cons.mp moved).1
    have same : (pre ++ front ++ (n :: waiting front left ++ back ++ post)).filter (· != n) =
        pre ++ front ++ (waiting front left ++ back ++ post) := by
      have dropped := filter_ne_of_not_mem apart
      simpa using dropped
    exact same ▸ removed
  · intro m
    rw [parent?_remove, progress.parent?_eq m]
    by_cases same : m = n
    · subst same
      simp [waits, behind, once.1, progress.left_old m mem_cons_self]
    · simp [same]
  · intro m apart
    rw [children_remove, stands, if_neg (by simpa using Ne.symm apart)]
    exact progress.elsewhere m apart
  · exact fun m => (kind_remove doc n m).trans (progress.kind_eq m)

theorem bring (progress : Progress start parent pre old new post front left (n :: right) back places doc)
    (task : Replacement start parent pre old new post) (known : ∀ m ∈ left, PlaceKnown new (front ++ [n]) places m) :
    Progress start parent pre old new post (front ++ [n]) left right back places
      (doc.insertBefore parent n (waiting front left ++ back ++ post).head?) := by
  have inside : n ∈ new := progress.mem_new mem_cons_self
  have solid := progress.solid task inside
  have fresh := progress.right_fresh task (n := n) mem_cons_self
  have outer := task.inner n inside
  refine ⟨?_, progress.left_once, progress.left_old, progress.left_back, known, ?_, ?_, ?_, ?_⟩
  · simpa using progress.new_eq
  · have lists := progress.lists.insertBefore solid
    have before : (pre ++ front).filter (· != n) = pre ++ front :=
      filter_ne_of_not_mem (by simp [outer.1, fresh.1])
    have after : (back ++ post).filter (· != n) = back ++ post :=
      filter_ne_of_not_mem (by simp [outer.2, fresh.2])
    rw [before, append_assoc (waiting front left), filter_append, after, ← waiting_done_more] at lists
    simpa using lists
  · intro m
    rw [parent?_insertBefore solid, progress.parent?_eq m]
    by_cases same : m = n <;> simp [same]
  · intro m apart
    rw [children_insertBefore_of_ne solid progress.lists.present apart, progress.elsewhere m apart]
    -- Where the node stood before decides whether it has to be taken out of that list.
    have stood : doc.parent? n = some m ↔ start.parent? n = some m := by
      rw [progress.parent?_eq n]
      by_cases mem : n ∈ old
      · have there : start.parent? n = some parent := task.lists.parents n (by simp [mem])
        by_cases remains : n ∈ left <;> simp [fresh, mem, there, remains, Ne.symm apart]
      · have gone : n ∉ left := fun remains => mem (progress.left_old n remains)
        simp [fresh, mem, gone]
    split
    · rename_i here
      rw [filter_filter]
      apply filter_congr
      intro k _
      by_cases same : k = n
      · subst same
        simp [stood.mp here]
      · simp [same]
    · rename_i elsewhere
      apply filter_congr
      intro k _
      by_cases same : k = n
      · subst same
        simp [mt stood.mpr elsewhere]
      · simp [same]
  · intro m
    rw [kind_insertBefore solid]
    exact progress.kind_eq m

theorem bringAll {moved : List NodeId} {mark : Option NodeId}
    (progress : Progress start parent pre old new post front left (moved ++ right) back places doc)
    (task : Replacement start parent pre old new post)
    (known : ∀ more, more ⊆ moved → ∀ m ∈ left, PlaceKnown new (front ++ more) places m)
    (marked : ∀ more, more ⊆ moved → (waiting (front ++ more) left ++ back ++ post).head? = mark) :
    Progress start parent pre old new post (front ++ moved) left right back places
      (moved.foldl (fun doc n => doc.insertBefore parent n mark) doc) := by
  induction moved generalizing front doc with
  | nil => simpa using progress
  | cons n moved ih =>
    have here : (waiting front left ++ back ++ post).head? = mark := by
      simpa using marked [] (nil_subset _)
    have next := progress.bring task (known [n] (by simp))
    rw [here] at next
    have rest := ih next
      (fun more mem => by simpa using known (n :: more) (cons_subset_cons n mem))
      (fun more mem => by simpa using marked (n :: more) (cons_subset_cons n mem))
    simpa using rest

theorem swap {b : NodeId}
    (progress : Progress start parent pre old new post front (a :: left ++ [b]) (b :: right ++ [a]) back places doc)
    (task : Replacement start parent pre old new post) :
    Progress start parent pre old new post (front ++ [b]) left right (a :: back) places
      ((doc.insertBefore parent b (doc.next? a)).insertBefore parent a (doc.next? b)) := by
  have freshA := progress.right_fresh task (n := a) (by simp)
  have freshB := progress.right_fresh task (n := b) (by simp)
  have insideA := progress.left_old a (by simp)
  have insideB := progress.left_old b (by simp)
  have once := progress.left_once
  have apart : a ≠ b := by
    intro same
    simp [same] at once
  have absentA : a ∉ left := fun mem => by simp [mem] at once
  have absentB : b ∉ left := fun mem => by
    simp [nodup_append] at once
    exact once.2.2 b mem rfl
  have solidA := progress.solid task (progress.mem_new (n := a) (by simp))
  have solidB := progress.solid task (progress.mem_new (n := b) (by simp))
  have standsA : doc.parent? a = some parent := by simp [progress.parent?_eq a]
  have standsB : doc.parent? b = some parent := by simp [progress.parent?_eq b]
  have lists : doc.Lists parent (pre ++ front ++ (a :: (waiting front left ++ b :: (back ++ post)))) := by
    have lists := progress.lists
    rw [cons_append, waiting_cons freshA.1, waiting_append, waiting_cons freshB.1] at lists
    simpa [waiting] using lists
  have solidA' : (doc.insertBefore parent b (doc.next? a)).isFragment a = false := by
    rwa [isFragment_insertBefore solidB]
  refine ⟨?_, ?_, ?_, ?_, ?_, ?_, ?_, ?_, ?_⟩
  · simpa using progress.new_eq
  · exact once.sublist (by simp)
  · exact fun m mem => progress.left_old m (by simp [mem])
  · intro m mem
    have other : m ≠ a := fun same => absentA (same ▸ mem)
    simpa [other] using progress.left_back m (by simp [mem])
  · intro m mem
    have given := progress.known m (by simp [mem])
    cases places with
    | none =>
      have other : m ≠ b := fun same => absentB (same ▸ mem)
      simpa [PlaceKnown, other] using given
    | some places => exact given
  · rw [waiting_done_absent absentB]
    simpa using lists.exchange solidA solidB
  · intro m
    rw [parent?_insertBefore solidA', parent?_insertBefore solidB, progress.parent?_eq m]
    by_cases first : m = a
    · simp [first]
    · by_cases second : m = b <;> simp [first, second]
  · intro m elsewhere
    have standsA' : (doc.insertBefore parent b (doc.next? a)).parent? a = some parent := by
      simp [parent?_insertBefore solidB, apart, standsA]
    have present : ((doc.insertBefore parent b (doc.next? a)).node? parent).isSome := by
      simpa [insertBefore_of_solid solidB] using lists.present
    rw [children_insertBefore_of_ne solidA' present elsewhere, standsA', if_neg (by simpa using Ne.symm elsewhere),
      children_insertBefore_of_ne solidB lists.present elsewhere, standsB, if_neg (by simpa using Ne.symm elsewhere),
      progress.elsewhere m elsewhere]
    apply filter_congr
    intro k _
    have stoodA : start.parent? a = some parent := task.lists.parents a (by simp [insideA])
    have stoodB : start.parent? b = some parent := task.lists.parents b (by simp [insideB])
    by_cases first : k = a
    · simp [first, stoodA, Ne.symm elsewhere]
    · by_cases second : k = b
      · simp [second, stoodB, Ne.symm elsewhere]
      · simp [first, second]
  · intro m
    rw [kind_insertBefore solidA', kind_insertBefore solidB]
    exact progress.kind_eq m

theorem takeWaiting {waits : NodeId → Bool}
    (progress : Progress start parent pre old new post front left right back places doc)
    (decides : ∀ n ∈ left, waits n = true ↔ n ∉ front) :
    Progress start parent pre old new post front [] right back places (doc.removeAll (left.filter waits)) := by
  induction left generalizing doc with
  | nil => simpa [removeAll] using progress
  | cons n left ih =>
    have rest : ∀ m ∈ left, waits m = true ↔ m ∉ front := fun m mem => decides m (by simp [mem])
    by_cases holds : waits n = true
    · have next := progress.take ((decides n mem_cons_self).mp holds)
      simpa [removeAll, holds] using ih next rest
    · have done : n ∈ front := by
        by_contra absent
        exact holds ((decides n mem_cons_self).mpr absent)
      simpa [removeAll, holds] using ih (progress.pass done) rest

end Progress

section Places

variable {places : List (NodeId × Nat)} {n : NodeId}

theorem placeOf?_eq_none (none : Runs.placeOf? places n = none) : ∀ i, (n, i) ∉ places := by
  intro i mem
  simp only [Runs.placeOf?, Option.map_eq_none_iff, find?_eq_none] at none
  simpa using none (n, i) mem

theorem mem_of_placeOf? {i : Nat} (found : Runs.placeOf? places n = some i) : (n, i) ∈ places := by
  obtain ⟨⟨m, _⟩, first, rfl⟩ := Option.map_eq_some_iff.mp found
  have same : m = n := by simpa using find?_some first
  exact same ▸ mem_of_find?_eq_some first

namespace Progress

variable {start doc : Document η π} {parent : NodeId} {pre old new post front left right back : List NodeId}
  {places : Option (List (NodeId × Nat))}
variable {known : List (NodeId × Nat)} {place : Nat} {n : NodeId}

theorem withPlaces (progress : Progress start parent pre old new post front left right back places doc) :
    Progress start parent pre old new post front left right back
      (some (places.getD (right.zipIdx front.length).reverse)) doc := by
  refine { progress with known := ?_ }
  intro n inside
  have given := progress.known n inside
  cases places with
  | some places => exact given
  | none =>
    constructor
    · intro missing mem
      rw [progress.new_eq] at mem
      have absent : n ∉ right := by
        intro here
        obtain ⟨i, bound, found⟩ := mem_iff_getElem.mp here
        refine placeOf?_eq_none missing (front.length + i) ?_
        simp [mem_zipIdx_iff_le_and_getElem?_sub, bound, found]
      have behind := progress.left_back n inside
      simp only [mem_append] at mem
      exact mem.elim (fun h => h.elim given absent) behind
    · intro i found
      have inside := mem_reverse.mp (mem_of_placeOf? found)
      rw [mem_zipIdx_iff_le_and_getElem?_sub] at inside
      obtain ⟨bound, here⟩ := inside
      have short : i - front.length < right.length := (List.getElem?_eq_some_iff.mp here).1
      rw [progress.new_eq, append_assoc, getElem?_append_right bound, getElem?_append_left short]
      exact here

theorem done_of_place (progress : Progress start parent pre old new post front (n :: left) right back (some known) doc)
    (found : Runs.placeOf? known n = some place) (outside : place < front.length ∨ front.length + right.length ≤ place) :
    n ∈ front := by
  have here := (progress.known n mem_cons_self).2 place found
  rw [progress.new_eq, append_assoc] at here
  rcases outside with before | behind
  · rw [getElem?_append_left before] at here
    exact mem_of_getElem? here
  · rw [getElem?_append_right (by omega), getElem?_append_right (by omega)] at here
    exact absurd (mem_of_getElem? here) (progress.left_back n mem_cons_self)

theorem right_of_place (progress : Progress start parent pre old new post front (n :: left) right back (some known) doc)
    (found : Runs.placeOf? known n = some place) (after : front.length ≤ place) (before : place < front.length + right.length) :
    right[place - front.length]? = some n := by
  have here := (progress.known n mem_cons_self).2 place found
  rw [progress.new_eq, append_assoc, getElem?_append_right after,
    getElem?_append_left (by omega)] at here
  exact here

end Progress
end Places

section Loop

structure Tracks (runs : Runs) (front back : List NodeId) : Prop where
  done : runs.newStart = front.length
  previous : runs.previous = front.getLast?
  beyond : runs.beyond = back.head?

variable {start doc : Document η π} {parent : NodeId} {pre old new post front back : List NodeId} {runs : Runs}

theorem Progress.insertNew (progress : Progress start parent pre old new post front [] runs.new back runs.places doc)
    (task : Replacement start parent pre old new post) (tracks : Tracks runs front back) :
    Progress start parent pre old new post (front ++ runs.new) [] [] back runs.places
      (runs.insertNew parent post.head? doc) := by
  have folded : runs.insertNew parent post.head? doc =
      runs.new.foldl (fun doc n => doc.insertBefore parent n (back ++ post).head?) doc := by
    unfold Runs.insertNew Runs.insertionMark
    rw [tracks.beyond, tracks.previous]
    cases back with
    | nil => rfl
    | cons first back =>
      rcases eq_nil_or_concat front with rfl | ⟨before, last, rfl⟩
      · rfl
      · have lists : doc.Lists parent ((pre ++ before) ++ last :: (first :: back ++ post)) := by
          simpa [waiting] using progress.lists
        simp [lists.next?]
  have given : Progress start parent pre old new post front [] (runs.new ++ []) back runs.places doc := by
    simpa using progress
  rw [folded]
  exact given.bringAll task (by simp) (by simp [waiting])

theorem Progress.removeOld (progress : Progress start parent pre old new post front runs.old [] back runs.places doc) :
    Progress start parent pre old new post front [] [] back runs.places (runs.removeOld doc) := by
  unfold Runs.removeOld
  split
  · rename_i unknown
    have waits : ∀ n ∈ runs.old, (fun _ => true) n = true ↔ n ∉ front := by
      intro n inside
      have given := progress.known n inside
      rw [unknown] at given
      simpa [PlaceKnown] using given
    simpa using progress.takeWaiting waits
  · rename_i places found
    apply progress.takeWaiting
    intro n inside
    have given := progress.known n inside
    rw [found] at given
    have behind := progress.left_back n inside
    rw [Option.isNone_iff_eq_none]
    constructor
    · intro missing done
      exact given.1 missing (by simp [progress.new_eq, done])
    · intro waits
      cases place : Runs.placeOf? places n with
      | none => rfl
      | some i =>
        have mem := mem_of_getElem? (given.2 i place)
        rw [progress.new_eq] at mem
        simp [waits, behind] at mem

theorem Progress.located (progress : Progress start parent pre old new post front runs.old runs.new back runs.places doc)
    (tracks : Tracks runs front back) :
    Progress start parent pre old new post front runs.old runs.new back
      (some (runs.places.getD runs.placesOfNew)) doc := by
  have known := progress.withPlaces
  rwa [← tracks.done] at known

theorem dropLast_append_last {as : List NodeId} :
    (a :: as).dropLast ++ [(a :: as).getLast (cons_ne_nil a as)] = a :: as :=
  dropLast_append_getLast _

theorem cons_dropLast_append {a b : NodeId} {as : List NodeId} (last : (a :: as).getLast (cons_ne_nil a as) = b)
    (apart : a ≠ b) : a :: as = a :: as.dropLast ++ [b] := by
  have long : as ≠ [] := by
    rintro rfl
    exact apart last
  rw [getLast_cons long] at last
  rw [cons_append, ← last, dropLast_append_getLast]

section

variable {a b : NodeId} {as bs : List NodeId}

/-- Each run begins with the last node of the other: these two change places. -/
theorem Progress.exchange (progress : Progress start parent pre old new post front (a :: as) (b :: bs) back places doc)
    (task : Replacement start parent pre old new post) (apart : a ≠ b)
    (lastOld : (a :: as).getLast (cons_ne_nil a as) = b) (lastNew : (b :: bs).getLast (cons_ne_nil b bs) = a) :
    Progress start parent pre old new post (front ++ [b]) as.dropLast bs.dropLast (a :: back) places
      ((doc.insertBefore parent b (doc.next? a)).insertBefore parent a (doc.next? b)) := by
  rw [cons_dropLast_append lastOld apart, cons_dropLast_append lastNew apart.symm] at progress
  exact progress.swap task

/-- The new nodes in front of the first old one that is left are brought before it. -/
theorem Progress.bringAhead {known : List (NodeId × Nat)} {ahead : Nat}
    (progress : Progress start parent pre old new post front (a :: as) bs back (some known) doc)
    (task : Replacement start parent pre old new post) (here : bs[ahead]? = some a) :
    Progress start parent pre old new post (front ++ bs.take ahead) (a :: as) (bs.drop ahead) back (some known)
      ((bs.take ahead).foldl (fun doc n => doc.insertBefore parent n (some a)) doc) := by
  have later : (bs.drop ahead)[0]? = some a := by simpa using here
  have once : (bs.take ahead ++ bs.drop ahead).Nodup := by
    have once := task.once
    rw [progress.new_eq, append_assoc, nodup_append, nodup_append] at once
    rw [take_append_drop]
    exact once.2.1.1
  have unmoved : a ∉ bs.take ahead := fun first =>
    (nodup_append.mp once).2.2 a first a (mem_of_getElem? later) rfl
  have fresh : a ∉ front := (progress.right_fresh task (mem_of_getElem? here)).1
  rw [← take_append_drop ahead bs] at progress
  apply progress.bringAll task fun _ _ => progress.known
  intro more inside
  have waits : a ∉ front ++ more := by
    simp only [mem_append, not_or]
    exact ⟨fresh, fun first => unmoved (inside first)⟩
  simp [waiting_cons waits]

end

theorem Progress.finish (task : Replacement start parent pre old new post)
    (progress : Progress start parent pre old new post front runs.old runs.new back runs.places doc)
    (tracks : Tracks runs front back) :
    ∃ front back places, Progress start parent pre old new post front [] [] back places
      (runs.reconcile parent post.head? doc) := by
  fun_induction Runs.reconcile parent post.head? runs doc generalizing front back with
  | case1 runs doc oldEq =>
    rw [oldEq] at progress
    exact ⟨_, _, _, progress.insertNew task tracks⟩
  | case2 runs doc newEq _ =>
    rw [newEq] at progress
    exact ⟨_, _, _, progress.removeOld⟩
  | case3 runs doc as b bs newEq oldEq ih =>
    rw [oldEq, newEq] at progress
    exact ih (progress.keepFront task) ⟨by simp [tracks.done], by simp, tracks.beyond⟩
  | case4 runs doc a as b bs oldEq newEq lastOld lastNew _ =>
    rename_i sameLast ih
    rw [oldEq, newEq, ← dropLast_append_last (a := a), ← dropLast_append_last (a := b)] at progress
    have same : (a :: as).getLast (cons_ne_nil a as) = (b :: bs).getLast (cons_ne_nil b bs) := sameLast
    rw [same] at progress
    exact ih (progress.keepBack task) ⟨tracks.done, tracks.previous, by simp [lastNew]⟩
  | case5 runs doc a as b bs oldEq newEq lastOld lastNew apart _ crossed =>
    rename_i tail head moved ih
    obtain ⟨lastNew_eq, lastOld_eq⟩ : a = lastNew ∧ b = lastOld := by simpa using crossed
    rw [oldEq, newEq] at progress
    have swapped := progress.exchange task apart lastOld_eq.symm lastNew_eq.symm
    have here : moved = (doc.insertBefore parent b (doc.next? a)).insertBefore parent a (doc.next? b) := by
      simp only [moved, tail, head, ← lastNew_eq, ← lastOld_eq]
    rw [← here] at swapped
    exact ih swapped ⟨by simp [tracks.done], by simp, by simp [lastNew_eq]⟩
  | case6 runs doc a as b bs oldEq newEq lastOld lastNew apart _ _ places runs' =>
    rename_i missing ih
    have known := progress.located tracks
    have absent := ((known.known a (by simp [oldEq])).1 missing)
    rw [oldEq] at known
    have waits : a ∉ front := fun done => absent (by simp [progress.new_eq, done])
    exact ih (known.take waits) { tracks with }
  | case7 runs doc a as b bs oldEq newEq lastOld lastNew apart _ _ places newEnd runs' place found inside ahead stays
      short =>
    rename_i moved doc' ih
    have known := progress.located tracks
    rw [oldEq] at known
    obtain ⟨after, before⟩ : runs.newStart < place ∧ place < runs.newStart + runs.new.length := by
      simpa [runs', newEnd] using inside
    rw [tracks.done] at after before
    have here : runs.new[ahead]? = some a := by
      have here := known.right_of_place found (by omega) before
      simpa only [ahead, runs', tracks.done] using here
    rw [newEq] at known here
    have brought : Progress start parent pre old new post (front ++ moved) _ _ back _ _ := known.bringAhead task here
    have bounded : ahead < (b :: bs).length := (List.getElem?_eq_some_iff.mp here).1
    obtain ⟨k, steps⟩ : ∃ k, ahead = k + 1 := ⟨ahead - 1, by simp only [ahead, runs', tracks.done]; omega⟩
    have rest : (b :: bs).drop ahead = bs.drop (ahead - 1) := by simp [steps]
    rw [rest] at brought
    have size : moved.length = ahead := by simp only [moved, length_take]; omega
    have nonempty : moved ≠ [] := fun empty => by simp [empty] at size; omega
    refine ih brought ⟨?_, ?_, tracks.beyond⟩
    · simp only [length_append, size, ahead, runs', tracks.done]
      omega
    · exact (getLast?_append_of_ne_nil front nonempty).symm
  | case8 runs doc a as b bs oldEq newEq lastOld lastNew apart _ _ places newEnd runs' place found inside ahead stays
      long =>
    rename_i doc' ih
    have known := progress.located tracks
    rw [oldEq] at known
    obtain ⟨after, before⟩ : runs.newStart < place ∧ place < runs.newStart + runs.new.length := by
      simpa [runs', newEnd] using inside
    rw [tracks.done] at after before
    have here := mem_of_getElem? (known.right_of_place found (by omega) before)
    have fresh := (known.right_fresh task here).1
    rw [newEq] at known
    have brought := known.bring task known.known
    rw [waiting_cons fresh] at brought
    have taken := brought.take (by simp [fresh, apart])
    exact ih taken ⟨by simp [runs', tracks.done], by simp, tracks.beyond⟩
  | case9 runs doc a as b bs oldEq newEq lastOld lastNew apart _ _ places newEnd runs' place found =>
    rename_i outside ih
    have known := progress.located tracks
    rw [oldEq] at known
    have place_ne : place ≠ front.length := by
      intro same
      have here := (known.known a mem_cons_self).2 place found
      rw [same, progress.new_eq, newEq] at here
      simp at here
      exact apart here.symm
    have done : a ∈ front := by
      apply known.done_of_place found
      have bounds : ¬ (runs.newStart < place ∧ place < runs.newStart + runs.new.length) := by
        simpa [runs', newEnd] using outside
      rw [tracks.done] at bounds
      omega
    exact ih (known.pass done) { tracks with }

end Loop

section Result

variable {doc : Document η π} {parent : NodeId} {pre old new post : List NodeId}

section

variable (task : Replacement doc parent pre old new post)
include task

theorem reconcile_progress : ∃ front back places, Progress doc parent pre old new post front [] [] back places
      (reconcile parent old new post.head? doc) :=
  Progress.finish task (Progress.start_of task : Progress doc parent pre old new post []
    ({ old, new } : Runs).old ({ old, new } : Runs).new [] ({ old, new } : Runs).places doc) ⟨rfl, rfl, rfl⟩

theorem reconcile_lists : (reconcile parent old new post.head? doc).Lists parent (pre ++ new ++ post) := by
  obtain ⟨front, back, _, finished⟩ := reconcile_progress task
  have done : new = front ++ back := by simpa using finished.new_eq
  simpa [waiting, done] using finished.lists

theorem parent?_reconcile (n : NodeId) : (reconcile parent old new post.head? doc).parent? n =
      if n ∈ new then some parent else if n ∈ old then none else doc.parent? n := by
  obtain ⟨front, back, _, finished⟩ := reconcile_progress task
  have done : new = front ++ back := by simpa using finished.new_eq
  simpa [done] using finished.parent?_eq n

theorem children_reconcile_of_ne {other : NodeId} (apart : other ≠ parent) :
    (reconcile parent old new post.head? doc).children other =
      (doc.children other).filter fun n => !decide (n ∈ new ∧ doc.parent? n = some other) := by
  obtain ⟨front, back, _, finished⟩ := reconcile_progress task
  have done : new = front ++ back := by simpa using finished.new_eq
  rw [finished.elsewhere other apart]
  simp [done]

end

/-- Reconciliation puts `new` in the place of `old`, between what stood before and behind. Old nodes that are not
among the new ones stand nowhere, new nodes are gone from where they stood, and no list changes beyond that. -/
theorem reconcile_replaces {after : Option NodeId} (lists : doc.Lists parent (pre ++ old ++ post))
    (follows : after = post.head?) (once : new.Nodup) (solid : ∀ n ∈ new, doc.isFragment n = false)
    (inner : ∀ n ∈ new, n ∉ pre ∧ n ∉ post) :
    (reconcile parent old new after doc).children parent = pre ++ new ++ post ∧
      (∀ n ∈ old, n ∉ new → (reconcile parent old new after doc).parent? n = none) ∧
      (∀ n ∈ new, ∀ other, other ≠ parent → doc.parent? n = some other →
        n ∉ (reconcile parent old new after doc).children other) ∧
      ∀ other, other ≠ parent → (reconcile parent old new after doc).children other =
        (doc.children other).filter fun n => !decide (n ∈ new ∧ doc.parent? n = some other) := by
  subst follows
  have task : Replacement doc parent pre old new post := ⟨lists, once, solid, inner⟩
  refine ⟨(reconcile_lists task).children_eq, ?_, ?_, fun other apart => children_reconcile_of_ne task apart⟩
  · intro n inside absent
    simp [parent?_reconcile task, inside, absent]
  · intro n inside other apart stood listed
    rw [children_reconcile_of_ne task apart] at listed
    simp [inside, stood] at listed

def twoLists : Document Unit Unit where
  nodes := #[
    { kind := .element "ul" false, children := [1, 2, 3, 4, 5] },
    { kind := .element "li" false, parent := some 0 }, { kind := .element "li" false, parent := some 0 },
    { kind := .element "li" false, parent := some 0 }, { kind := .element "li" false, parent := some 0 },
    { kind := .element "li" false, parent := some 0 },
    { kind := .element "ul" false, children := [7] }, { kind := .element "li" false, parent := some 6 }]

theorem twoLists_lists : twoLists.Lists 0 ([1] ++ [2, 3, 4] ++ [5]) :=
  ⟨by decide, by decide, by decide, by decide⟩

/-- Two items change places, one goes away and one comes from the other list. -/
theorem reconcile_replaces_items : (reconcile 0 [2, 3, 4] [4, 7, 2] (some 5) twoLists).children 0 = [1, 4, 7, 2, 5] ∧
      (reconcile 0 [2, 3, 4] [4, 7, 2] (some 5) twoLists).parent? 3 = none ∧
      (reconcile 0 [2, 3, 4] [4, 7, 2] (some 5) twoLists).children 6 = [] := by
  have once : [4, 7, 2].Nodup := by decide
  obtain ⟨children, gone, _, elsewhere⟩ :=
    reconcile_replaces twoLists_lists rfl once (by decide) (by decide)
  exact ⟨children, gone 3 (by decide) (by decide), elsewhere 6 (by decide)⟩

end Result

end LiveMarkup.Live
