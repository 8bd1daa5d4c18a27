import LiveMarkup.Live.Template
import LiveMarkup.Proofs.Regions

/-!
Where cursors lead: from a node to the next in document order, along paths, to the nodes that a claim takes and to
the comments that close a region.
-/

namespace LiveMarkup.Document

variable {η π : Type} {doc : Document η π} {next above : NodeId} {before : List NodeId}

section Following

variable {root parent n : NodeId} {lead rest : List NodeId}

theorem following_child {child : NodeId} (children : doc.children n = child :: rest) :
    doc.following root n = some child := by
  simp [following, firstChild?, children]

theorem following_sibling (lists : doc.Lists parent (lead ++ n :: next :: rest))
    (leaf : doc.children n = []) (apart : n ≠ root) : doc.following root n = some next := by
  have beside : doc.next? n = some next := lists.next?
  simp [following, firstChild?, leaf, behind, apart, beside]

theorem following_up (lists : doc.Lists parent (lead ++ [n]))
    (leaf : doc.children n = []) (apart : n ≠ root) (inner : parent ≠ root)
    (beside : doc.Lists above (before ++ parent :: next :: rest)) : doc.following root n = some next := by
  have last : doc.next? n = none := lists.next?
  have up : doc.parent? n = some parent := lists.parents n (by simp)
  have onward : doc.next? parent = some next := beside.next?
  obtain ⟨_, found⟩ := Option.isSome_iff_exists.mp lists.present
  obtain ⟨_, enough⟩ := Nat.exists_eq_add_one_of_ne_zero (Nat.ne_of_gt (Nat.lt_of_le_of_lt (Nat.zero_le _) (lt_size_of_node? found)))
  simp [following, firstChild?, leaf, behind, apart, last, up, enough, inner, onward]

theorem following_last (lists : doc.Lists root (lead ++ [n])) (leaf : doc.children n = []) :
    doc.following root n = none := by
  have last : doc.next? n = none := lists.next?
  have up : doc.parent? n = some root := lists.parents n (by simp)
  have stop : doc.behind root doc.nodes.size root = none := by
    cases doc.nodes.size <;> simp [behind]
  by_cases here : n = root
  · subst here
    simp [following, firstChild?, leaf, behind]
  · simp [following, firstChild?, leaf, behind, here, last, up, stop]

theorem followingUpTo_leaves (fuel : Nat) (lists : doc.Lists root (lead ++ n :: rest))
    (leaves : ∀ m ∈ n :: rest, doc.children m = []) (apart : ∀ m ∈ n :: rest, m ≠ root) :
    doc.followingUpTo root fuel n = rest.take fuel := by
  induction rest generalizing lead n fuel with
  | nil =>
    cases fuel with
    | zero => rfl
    | succ => simp [followingUpTo, following_last lists (leaves n (by simp))]
  | cons next rest ih =>
    cases fuel with
    | zero => rfl
    | succ fuel =>
      have onward := following_sibling lists (leaves n (by simp)) (apart n (by simp))
      have around : doc.Lists root ((lead ++ [n]) ++ next :: rest) := by simpa using lists
      have later := ih fuel around (fun m mem => leaves m (List.mem_cons_of_mem n mem))
        fun m mem => apart m (List.mem_cons_of_mem n mem)
      simp [followingUpTo, onward, later]

end Following

section Visits

/-- In document order `m` comes `steps` nodes behind those that follow `n` at once, and none of these is accepted. -/
def Visits (doc : Document η π) (root : NodeId) (accepts : NodeId → Bool) (n m : NodeId) (steps : Nat) : Prop :=
  ∀ fuel, (doc.followingUpTo root (fuel + steps + 1) n).find? accepts =
    if accepts m then some m else (doc.followingUpTo root fuel m).find? accepts

variable {root parent n m : NodeId} {accepts : NodeId → Bool} {more : List NodeId}

theorem visits_next (next : doc.following root n = some m) : doc.Visits root accepts n m 0 := by
  intro fuel
  rw [Nat.add_zero, followingUpTo, next]
  cases here : accepts m <;> simp [here]

theorem Visits.trans {middle : NodeId} {one two : Nat} (first : doc.Visits root accepts n middle one)
    (passed : accepts middle = false) (second : doc.Visits root accepts middle m two) :
    doc.Visits root accepts n m (one + 1 + two) := by
  intro fuel
  have step := first (fuel + two + 1)
  rw [passed] at step
  rw [show fuel + (one + 1 + two) + 1 = fuel + two + 1 + one + 1 by omega, step]
  exact second fuel

theorem visits_behind_leaves {lead rest : List NodeId}
    (lists : doc.Lists parent (lead ++ n :: rest)) (leaves : ∀ m ∈ n :: rest, doc.children m = [])
    (apart : ∀ m ∈ n :: rest, m ≠ root) (inner : parent ≠ root) (passed : ∀ m ∈ rest, accepts m = false)
    (beside : doc.Lists above (before ++ parent :: next :: more)) : doc.Visits root accepts n next rest.length := by
  induction rest generalizing lead n with
  | nil => exact visits_next (following_up lists (leaves n (by simp)) (apart n (by simp)) inner beside)
  | cons second rest ih =>
    have onward := following_sibling lists (leaves n (by simp)) (apart n (by simp))
    have around : doc.Lists parent ((lead ++ [n]) ++ second :: rest) := by simpa using lists
    have later := ih around (fun m mem => leaves m (List.mem_cons_of_mem n mem))
      (fun m mem => apart m (List.mem_cons_of_mem n mem)) fun m mem => passed m (List.mem_cons_of_mem second mem)
    have whole := (visits_next onward).trans (passed second (by simp)) later
    rw [List.length_cons, Nat.add_comm]
    simpa using whole

theorem visits_beside {leaves : List NodeId} (lists : doc.Lists parent leaves)
    (flat : ∀ m ∈ leaves, doc.children m = []) (apart : ∀ m ∈ leaves, m ≠ root) (inner : parent ≠ root)
    (passed : ∀ m ∈ leaves, accepts m = false) (beside : doc.Lists above (before ++ parent :: next :: more)) :
    doc.Visits root accepts parent next leaves.length := by
  cases leaves with
  | nil => exact visits_next (following_sibling beside lists.children_eq inner)
  | cons first rest =>
    have down : doc.following root parent = some first := following_child lists.children_eq
    have around : doc.Lists parent ([] ++ first :: rest) := lists
    have past := visits_behind_leaves around flat apart inner
      (fun m mem => passed m (List.mem_cons_of_mem first mem)) beside
    have whole := (visits_next down).trans (passed first (by simp)) past
    rw [List.length_cons, Nat.add_comm]
    simpa using whole

theorem Visits.find? {steps : Nat} (visits : doc.Visits root accepts n m steps) (here : accepts m = true)
    (enough : steps < doc.nodes.size) : (doc.allFollowing root n).find? accepts = some m := by
  obtain ⟨fuel, size⟩ := Nat.exists_eq_add_of_lt enough
  rw [allFollowing, size, Nat.add_comm steps fuel, visits fuel, here, if_pos rfl]

end Visits

end LiveMarkup.Document

namespace LiveMarkup.Live
open Document List

variable {η π : Type} {doc : Document η π} {parent n : NodeId} {lead given rest tail : List NodeId}

theorem not_marker (plain : doc.isComment n = false) (mark : String) : isMarker doc n mark = false := by
  simp [isMarker, plain]

theorem nextOnPath?_eq (lists : doc.Lists parent (lead ++ n :: rest)) (plain : doc.isComment n = false) :
    nextOnPath? doc n = rest.head? := by
  rw [nextOnPath?, not_marker plain]
  exact lists.next?

theorem follow?_first {child : NodeId} (children : doc.children n = child :: rest) (path : List Char) :
    follow? doc n ('f' :: path) = follow? doc child path := by
  simp [follow?, firstChild?, children]

theorem follow?_next {next : NodeId} (lists : doc.Lists parent (lead ++ n :: next :: rest))
    (plain : doc.isComment n = false) (path : List Char) : follow? doc n ('n' :: path) = follow? doc next path := by
  simp [follow?, nextOnPath?_eq lists plain]

def Closes (doc : Document η π) (tail : List NodeId) : Prop := ∀ n ∈ tail.head?, isMarker doc n regionEnd = true

theorem closing?_eq (plain : ∀ n ∈ given, doc.isComment n = false) (closes : Closes doc tail) :
    closing? doc 0 (given ++ tail) = tail.head? := by
  induction given with
  | nil =>
    cases tail with
    | nil => rfl
    | cons ending =>
      have closed : isMarker doc ending regionEnd = true := closes ending (by simp)
      have notOpen : isMarker doc ending regionStart = false := by
        simp only [isMarker, Bool.and_eq_true, beq_iff_eq] at closed
        simp [isMarker, closed.2, regionStart, regionEnd]
      simp [closing?, closed, notOpen]
  | cons n _ ih =>
    have here := plain n (by simp)
    have later := ih fun m mem => plain m (mem_cons_of_mem n mem)
    simp [closing?, not_marker here, later]

theorem claims_ofParent (lists : doc.Lists parent (given ++ tail)) (plain : ∀ n ∈ given, doc.isComment n = false)
    (closes : Closes doc tail) : Claims (Claim.ofParent doc parent) given tail := by
  refine ⟨?_, ?_⟩
  · simp [Claim.ofParent, Claim.make, firstChild?, lists.children_eq]
  · simp [Claim.ofParent, Claim.make, lists.children_eq, closing?_eq plain closes]

theorem claims_ofMarker {marker ending : NodeId}
    (lists : doc.Lists parent (lead ++ marker :: (given ++ ending :: rest)))
    (leaves : ∀ m ∈ marker :: (given ++ ending :: rest), doc.children m = [])
    (apart : ∀ m ∈ marker :: (given ++ ending :: rest), m ≠ parent) (plain : ∀ n ∈ given, doc.isComment n = false)
    (closed : isMarker doc ending regionEnd = true) :
    ∃ claim, Claim.ofMarker? doc marker = some claim ∧ Claims claim given (ending :: rest) := by
  have size : (given ++ ending :: rest).length ≤ doc.nodes.size := by
    refine length_le_size ?_ fun m mem =>
      lt_size_of_lists lists m (mem_append_right lead (mem_cons_of_mem marker mem))
    exact (nodup_cons.mp (nodup_append.mp lists.once).2.1).2
  have all : doc.allFollowing parent marker = given ++ ending :: rest := by
    rw [allFollowing, followingUpTo_leaves _ lists leaves apart, take_of_length_le size]
  have above : doc.parent? marker = some parent := lists.parents marker (by simp)
  let accepts (n : NodeId) : Bool :=
    (isMarker doc n regionStart || isMarker doc n regionEnd) && doc.parent? n == some parent
  have kept : (given ++ ending :: rest).filter accepts = ending :: rest.filter accepts := by
    have none : given.filter accepts = [] := filter_eq_nil_iff.mpr fun n mem => by
      simp [accepts, not_marker (plain n mem)]
    have here : accepts ending = true := by
      simp [accepts, closed, lists.parents ending (by simp)]
    rw [filter_append, none, nil_append, filter_cons_of_pos here]
  have ends : regionEnd? doc marker = some ending := by
    have closes : Closes doc (ending :: rest.filter accepts) := by simpa [Closes] using closed
    have found : closing? doc 0 ([] ++ ending :: rest.filter accepts) = some ending := closing?_eq (by simp) closes
    rw [regionEnd?, above, Option.bind_some]
    show closing? doc 0 ((doc.allFollowing parent marker).filter accepts) = some ending
    rw [all, kept]
    exact found
  refine ⟨Claim.make parent (doc.next? marker) (some ending), ?_, ?_, ?_⟩
  · simp [Claim.ofMarker?, above, ends]
  · exact lists.next?
  · rfl

section Elements

variable {claim : Claim} {tag : String}

theorem takeElement_found {svg : Bool} (next : claim.next = some n) (mem : claim.ending ≠ some n)
    (element : doc.kind n = .element tag svg) (size : 0 < doc.nodes.size) :
    claim.takeElement doc tag = (some n, { claim with next := doc.next? n }) := by
  obtain ⟨_, enough⟩ := Nat.exists_eq_add_one_of_ne_zero (Nat.ne_of_gt size)
  have plain : isMarker doc n regionStart = false := not_marker (by simp [isComment, element]) _
  have found : Claim.firstElement? doc claim.ending doc.nodes.size claim.next = some n := by
    rw [next, enough, Claim.firstElement?, if_neg mem, plain]
    simp [element, Kind.isElement]
  have same : Text.sameIgnoringCase tag tag = true := by simp [Text.sameIgnoringCase]
  simp [Claim.takeElement, found, tag?, element, Kind.tag?, same]

theorem takeElement_none (past : claim.next = claim.ending) (tag : String) :
    claim.takeElement doc tag = (none, claim) := by
  have none : Claim.firstElement? doc claim.ending doc.nodes.size claim.next = none := by
    rw [past]
    cases doc.nodes.size with
    | zero => rfl
    | succ => cases claim.ending <;> simp [Claim.firstElement?]
  simp [Claim.takeElement, none]

end Elements

end LiveMarkup.Live
