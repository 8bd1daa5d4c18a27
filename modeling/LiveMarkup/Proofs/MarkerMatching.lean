import LiveMarkup.Proofs.Cursors
import LiveMarkup.Proofs.PathsOverRegions

/-!
Markers match as brackets do. A region ends at the first marker among the siblings at which more regions have been closed
than were opened, and a claim that elements are taken from gives, one after the other, just the elements of its range that
stand in none of the regions opened there.
-/

namespace LiveMarkup.Live
open Document List

variable {η π : Type} {doc next : Document η π} {parent n ending : NodeId} {nodes front back rest tail : List NodeId}
variable {depth fuel : Nat} {before after : List NodeId}

def opened (doc : Document η π) (nodes : List NodeId) : Nat := nodes.countP (isMarker doc · regionStart)

def closed (doc : Document η π) (nodes : List NodeId) : Nat := nodes.countP (isMarker doc · regionEnd)

/-- With `depth` regions open before them, nodes nowhere close more regions than are open. -/
def ClosesNoMore (doc : Document η π) (depth : Nat) (nodes : List NodeId) : Prop :=
  ∀ front, front <+: nodes → closed doc front ≤ depth + opened doc front

/-- The first of the nodes that closes a region and up to which more have been closed than opened. -/
def FirstUnmatched (doc : Document η π) (nodes : List NodeId) (ending : NodeId) : Prop :=
  ∃ before after, nodes = before ++ ending :: after ∧ isMarker doc ending regionEnd = true ∧
    opened doc (before ++ [ending]) < closed doc (before ++ [ending]) ∧ ClosesNoMore doc 0 before

section

variable (doc)

theorem opened_append (front back : List NodeId) :
    opened doc (front ++ back) = opened doc front + opened doc back := countP_append

theorem closed_append (front back : List NodeId) :
    closed doc (front ++ back) = closed doc front + closed doc back := countP_append

theorem opened_cons (n : NodeId) (nodes : List NodeId) :
    opened doc (n :: nodes) = opened doc [n] + opened doc nodes := opened_append doc [n] nodes

theorem closed_cons (n : NodeId) (nodes : List NodeId) :
    closed doc (n :: nodes) = closed doc [n] + closed doc nodes := closed_append doc [n] nodes

theorem opened_singleton (n : NodeId) : opened doc [n] = if isMarker doc n regionStart then 1 else 0 := countP_singleton

theorem closed_singleton (n : NodeId) : closed doc [n] = if isMarker doc n regionEnd then 1 else 0 := countP_singleton

end

theorem not_closing_of_opening (opens : isMarker doc n regionStart = true) : isMarker doc n regionEnd = false := by
  by_contra closes
  simp [not_opening_of_closing (by simpa using closes)] at opens

theorem counts_of_opening (opens : isMarker doc n regionStart = true) : opened doc [n] = 1 ∧ closed doc [n] = 0 := by
  simp [opened_singleton, closed_singleton, opens, not_closing_of_opening opens]

theorem counts_of_closing (closes : isMarker doc n regionEnd = true) : opened doc [n] = 0 ∧ closed doc [n] = 1 := by
  simp [opened_singleton, closed_singleton, closes, not_opening_of_closing closes]

theorem ClosesNoMore.whole (kept : ClosesNoMore doc depth nodes) : closed doc nodes ≤ depth + opened doc nodes :=
  kept nodes (prefix_refl nodes)

theorem closesNoMore_nil (doc : Document η π) (depth : Nat) : ClosesNoMore doc depth [] := by
  intro part starts
  simp [prefix_nil.mp starts, closed]

theorem closesNoMore_append : ClosesNoMore doc depth (front ++ back) ↔
    ClosesNoMore doc depth front ∧ ClosesNoMore doc (depth + opened doc front - closed doc front) back := by
  refine ⟨fun all => ⟨fun part starts => all part (starts.trans (prefix_append front back)), fun part starts => ?_⟩,
    fun ⟨first, second⟩ part starts => ?_⟩
  · have whole := all (front ++ part) ((prefix_append_right_inj front).mpr starts)
    have first := all front (prefix_append front back)
    rw [opened_append, closed_append] at whole
    omega
  · rcases prefix_or_prefix_of_prefix starts (prefix_append front back) with mem | ⟨part, rfl⟩
    · exact first part mem
    · have later := second part ((prefix_append_right_inj front).mp starts)
      have level := first.whole
      rw [opened_append, closed_append]
      omega

theorem closesNoMore_cons : ClosesNoMore doc depth (n :: nodes) ↔
    ClosesNoMore doc depth [n] ∧ ClosesNoMore doc (depth + opened doc [n] - closed doc [n]) nodes := by
  rw [← closesNoMore_append, singleton_append]

theorem closesNoMore_singleton : ClosesNoMore doc depth [n] ↔ ¬ (isMarker doc n regionEnd = true ∧ depth = 0) := by
  refine ⟨fun kept ⟨closes, outermost⟩ => ?_, fun passes part starts => ?_⟩
  · have level := kept.whole
    have counts := counts_of_closing closes
    omega
  · rcases prefix_cons_iff.mp starts with rfl | ⟨_, rfl, nothing⟩
    · simp [closed]
    · rw [prefix_nil.mp nothing, closed_singleton]
      split
      · rename_i closes
        have some : depth ≠ 0 := fun none => passes ⟨closes, none⟩
        omega
      · exact Nat.zero_le _

theorem closing?_passed (passes : ClosesNoMore doc depth [n]) :
    closing? doc depth (n :: nodes) = closing? doc (depth + opened doc [n] - closed doc [n]) nodes := by
  rw [closesNoMore_singleton] at passes
  rw [closing?, opened_singleton, closed_singleton]
  by_cases opens : isMarker doc n regionStart = true
  · simp [opens, not_closing_of_opening opens]
  · by_cases closes : isMarker doc n regionEnd = true
    · have inner : depth ≠ 0 := fun none => passes ⟨closes, none⟩
      simp [opens, closes, inner]
    · simp [opens, closes]

theorem closing?_stopped (stops : ¬ ClosesNoMore doc depth [n]) (nodes : List NodeId) :
    closing? doc depth (n :: nodes) = some n ∧ isMarker doc n regionEnd = true ∧ depth = 0 := by
  rw [closesNoMore_singleton, not_not] at stops
  obtain ⟨closes, rfl⟩ := stops
  simp [closing?, not_opening_of_closing closes, closes]

theorem closing?_append (first : ClosesNoMore doc depth front) :
    closing? doc depth (front ++ back) = closing? doc (depth + opened doc front - closed doc front) back := by
  induction front generalizing depth with
  | nil => rfl
  | cons n front ih =>
    obtain ⟨passes, later⟩ := closesNoMore_cons.mp first
    have level := passes.whole
    rw [cons_append, closing?_passed passes, ih later, opened_cons doc n front, closed_cons doc n front]
    congr 1
    omega

theorem closing?_eq_none_iff : closing? doc depth nodes = none ↔ ClosesNoMore doc depth nodes := by
  induction nodes generalizing depth with
  | nil => simp [closing?, closesNoMore_nil]
  | cons n nodes ih =>
    rw [closesNoMore_cons]
    by_cases passes : ClosesNoMore doc depth [n]
    · simp only [closing?_passed passes, ih, passes, true_and]
    · simp [(closing?_stopped passes nodes).1, passes]

theorem closing?_eq_some_iff : closing? doc depth nodes = some ending ↔
    ∃ before after, nodes = before ++ ending :: after ∧ isMarker doc ending regionEnd = true ∧
      closed doc before = depth + opened doc before ∧ ClosesNoMore doc depth before := by
  constructor
  · intro found
    induction nodes generalizing depth with
    | nil => cases found
    | cons n nodes ih =>
      by_cases passes : ClosesNoMore doc depth [n]
      · rw [closing?_passed passes] at found
        obtain ⟨before, after, rfl, closes, _, kept⟩ := ih found
        have first := passes.whole
        refine ⟨n :: before, after, rfl, closes, ?_, closesNoMore_cons.mpr ⟨passes, kept⟩⟩
        rw [opened_cons doc n before, closed_cons doc n before]
        omega
      · obtain ⟨here, closes, rfl⟩ := closing?_stopped passes nodes
        obtain rfl := Option.some.inj (here.symm.trans found)
        exact ⟨[], nodes, rfl, closes, rfl, closesNoMore_nil doc 0⟩
  · rintro ⟨_, after, rfl, closes, level, kept⟩
    have stops : ¬ ClosesNoMore doc 0 [ending] := fun passes => closesNoMore_singleton.mp passes ⟨closes, rfl⟩
    rw [closing?_append kept, level, Nat.sub_self, (closing?_stopped stops after).1]

theorem closing?_eq_some_iff_firstUnmatched : closing? doc 0 nodes = some ending ↔ FirstUnmatched doc nodes ending := by
  rw [closing?_eq_some_iff]
  refine exists_congr fun before => exists_congr fun after => and_congr_right fun _ => and_congr_right fun closes => ?_
  have counts := counts_of_closing closes
  rw [opened_append, closed_append]
  refine ⟨fun ⟨level, kept⟩ => ⟨by omega, kept⟩, fun ⟨more, kept⟩ => ⟨?_, kept⟩⟩
  have bound := kept.whole
  omega

theorem exists_unclosed (more : closed doc nodes < opened doc nodes) :
    ∃ before marker after, nodes = before ++ marker :: after ∧ isMarker doc marker regionStart = true ∧
      ClosesNoMore doc 0 after := by
  induction size : nodes.length using Nat.strongRecOn generalizing nodes with
  | ind count ih =>
    have onward : ∀ {skipped rest : List NodeId}, nodes = skipped ++ rest → rest.length < count →
        closed doc rest < opened doc rest → ∃ before marker after, nodes = before ++ marker :: after ∧
          isMarker doc marker regionStart = true ∧ ClosesNoMore doc 0 after := by
      intro skipped rest split shorter more
      obtain ⟨before, marker, after, rfl, opens, kept⟩ := ih rest.length shorter more rfl
      exact ⟨skipped ++ before, marker, after, by rw [split, append_assoc], opens, kept⟩
    cases nodes with
    | nil => simp [closed, opened] at more
    | cons n nodes =>
      rw [length_cons] at size
      rw [closed_cons, opened_cons] at more
      by_cases opens : isMarker doc n regionStart = true
      · cases found : closing? doc 0 nodes with
        | none => exact ⟨[], n, nodes, rfl, opens, closing?_eq_none_iff.mp found⟩
        | some ending =>
          obtain ⟨before, after, rfl, closes, _, -⟩ := closing?_eq_some_iff.mp found
          have split : n :: (before ++ ending :: after) = (n :: before ++ [ending]) ++ after := by simp
          have first := counts_of_opening opens
          have last := counts_of_closing closes
          rw [opened_append, closed_append, opened_cons doc ending, closed_cons doc ending] at more
          rw [length_append, length_cons] at size
          exact onward split (by omega) (by omega)
      · have split : n :: nodes = [n] ++ nodes := rfl
        rw [opened_singleton, if_neg opens] at more
        exact onward split (by omega) (by omega)

/-- The elements among nodes at which no region is open, `depth` being open before the first. -/
def outermost (doc : Document η π) : (depth : Nat) → List NodeId → List NodeId
  | _, [] => []
  | depth, n :: rest =>
    let behind := outermost doc (depth + opened doc [n] - closed doc [n]) rest
    if depth = 0 ∧ (doc.kind n).isElement = true then n :: behind else behind

theorem unmarked_of_element (element : (doc.kind n).isElement = true) (mark : String) : isMarker doc n mark = false := by
  refine not_marker ?_ mark
  cases kind : doc.kind n <;> simp_all [isComment, Kind.isElement]

theorem counts_of_element (element : (doc.kind n).isElement = true) : opened doc [n] = 0 ∧ closed doc [n] = 0 := by
  simp [opened_singleton, closed_singleton, unmarked_of_element element]

theorem level_of_element (element : (doc.kind n).isElement = true) (depth : Nat) :
    depth + opened doc [n] - closed doc [n] = depth := by
  have counts := counts_of_element element
  omega

theorem outermost_sublist (doc : Document η π) (depth : Nat) (nodes : List NodeId) :
    (outermost doc depth nodes).Sublist nodes := by
  induction nodes generalizing depth with
  | nil => exact .slnil
  | cons n _ ih =>
    rw [outermost]
    split
    · exact (ih _).cons_cons n
    · exact (ih _).cons n

theorem outermost_append (first : ClosesNoMore doc depth front) : outermost doc depth (front ++ back) =
    outermost doc depth front ++ outermost doc (depth + opened doc front - closed doc front) back := by
  induction front generalizing depth with
  | nil => rfl
  | cons n front ih =>
    obtain ⟨passes, later⟩ := closesNoMore_cons.mp first
    have level := passes.whole
    have same : depth + opened doc [n] - closed doc [n] + opened doc front - closed doc front =
        depth + opened doc (n :: front) - closed doc (n :: front) := by
      rw [opened_cons doc n front, closed_cons doc n front]
      omega
    rw [cons_append, outermost, outermost, ih later, same]
    split <;> rfl

theorem outermost_hidden (kept : ClosesNoMore doc depth nodes) : outermost doc (depth + 1) nodes = [] := by
  induction nodes generalizing depth with
  | nil => rfl
  | cons n _ ih =>
    obtain ⟨passes, later⟩ := closesNoMore_cons.mp kept
    have level := passes.whole
    have deeper : depth + 1 + opened doc [n] - closed doc [n] = depth + opened doc [n] - closed doc [n] + 1 := by omega
    rw [outermost, deeper]
    simp [ih later]

theorem outermost_behind (closes : isMarker doc ending regionEnd = true)
    (level : closed doc before = opened doc before) (kept : ClosesNoMore doc 0 before) :
    outermost doc 1 (before ++ ending :: after) = outermost doc 0 after := by
  have wider : ClosesNoMore doc 1 before := fun part starts => Nat.le_trans (kept part starts) (by omega)
  have open_ : 1 + opened doc before - closed doc before = 1 := by omega
  rw [outermost_append wider, outermost_hidden kept, open_, outermost, (counts_of_closing closes).1,
    (counts_of_closing closes).2]
  simp

theorem exists_of_outermost (kept : ClosesNoMore doc depth nodes)
    (split : outermost doc depth nodes = before ++ n :: after) :
    (doc.kind n).isElement = true ∧ ∃ front back, nodes = front ++ n :: back ∧
      closed doc front = depth + opened doc front ∧ outermost doc 0 back = after := by
  induction nodes generalizing depth before with
  | nil => simp [outermost] at split
  | cons m nodes ih =>
    obtain ⟨passes, later⟩ := closesNoMore_cons.mp kept
    have level := passes.whole
    have onward : ∀ {before}, outermost doc (depth + opened doc [m] - closed doc [m]) nodes = before ++ n :: after →
        (doc.kind n).isElement = true ∧ ∃ front back, m :: nodes = front ++ n :: back ∧
          closed doc front = depth + opened doc front ∧ outermost doc 0 back = after := by
      intro before split
      obtain ⟨element, front, back, rfl, _, rest⟩ := ih later split
      refine ⟨element, m :: front, back, rfl, ?_, rest⟩
      rw [opened_cons doc m front, closed_cons doc m front]
      omega
    rw [outermost] at split
    split at split
    · rename_i here
      cases before with
      | nil =>
        obtain ⟨rfl, rest⟩ := cons.inj split
        rw [level_of_element here.2, here.1] at rest
        exact ⟨here.2, [], nodes, rfl, here.1.symm, rest⟩
      | cons => exact onward (cons.inj split).2
    · exact onward split

theorem mem_outermost_iff (kept : ClosesNoMore doc 0 nodes) : n ∈ outermost doc 0 nodes ↔
    (doc.kind n).isElement = true ∧ ∃ front back, nodes = front ++ n :: back ∧ closed doc front = opened doc front := by
  constructor
  · intro mem
    obtain ⟨_, _, split⟩ := append_of_mem mem
    obtain ⟨element, front, back, whole, _, -⟩ := exists_of_outermost kept split
    exact ⟨element, front, back, whole, by omega⟩
  · rintro ⟨element, front, _, rfl, _⟩
    have even : 0 + opened doc front - closed doc front = 0 := by omega
    rw [outermost_append (closesNoMore_append.mp kept).1, even, outermost]
    simp [element]

section Ranges

variable {left right range : List NodeId} {marker : NodeId}

/-- What stands in the region that a marker opens: the siblings behind it up to the marker that closes it, or all of them
when none does. -/
def regionNodes (doc : Document η π) (marker : NodeId) : List NodeId :=
  Claim.run doc (regionEnd? doc marker) doc.nodes.size (doc.next? marker)

theorem exists_cut (doc : Document η π) (nodes : List NodeId) : ∃ range tail, nodes = range ++ tail ∧
    closing? doc 0 nodes = tail.head? ∧ ClosesNoMore doc 0 range ∧ (tail = [] ∨ closed doc range = opened doc range) := by
  cases found : closing? doc 0 nodes with
  | none => exact ⟨nodes, [], by simp, rfl, closing?_eq_none_iff.mp found, .inl rfl⟩
  | some ending =>
    obtain ⟨before, after, rfl, -, _, kept⟩ := closing?_eq_some_iff.mp found
    exact ⟨before, ending :: after, rfl, rfl, kept, .inr (by omega)⟩

theorem regionNodes_eq (tree : doc.IsTree parent) (children : doc.children parent = left ++ marker :: (range ++ tail))
    (ends : closing? doc 0 (range ++ tail) = tail.head?) : regionNodes doc marker = range := by
  have lists := tree.lists
  rw [children] at lists
  have around : doc.Lists parent ((left ++ [marker]) ++ (range ++ tail)) := by simpa using lists
  have claims : Claims (.make parent (doc.next? marker) (regionEnd? doc marker)) range tail :=
    ⟨lists.next?, (regionEnd?_eq tree children).trans ends⟩
  exact claim_nodes around claims

theorem mem_regionNodes (tree : doc.IsTree parent) (children : doc.children parent = left ++ marker :: (front ++ n :: back))
    (kept : ClosesNoMore doc 0 front) (element : (doc.kind n).isElement = true) : n ∈ regionNodes doc marker := by
  have passes : ∀ depth, ClosesNoMore doc depth [n] := fun depth =>
    closesNoMore_singleton.mpr fun ⟨closes, _⟩ => by simp [unmarked_of_element element] at closes
  have scan : ∀ rest, closing? doc 0 (front ++ n :: rest) = closing? doc (0 + opened doc front - closed doc front) rest := by
    intro rest
    rw [closing?_append kept, closing?_passed (passes _), level_of_element element]
  cases found : closing? doc 0 (front ++ n :: back) with
  | none =>
    have around : front ++ n :: back = (front ++ n :: back) ++ [] := by simp
    rw [around] at children found
    simp [regionNodes_eq tree children found]
  | some ending =>
    have later := found
    rw [scan] at later
    obtain ⟨before, after, rfl, -⟩ := closing?_eq_some_iff.mp later
    have around : front ++ n :: (before ++ ending :: after) = (front ++ n :: before) ++ ending :: after := by simp
    rw [around] at children found
    simp [regionNodes_eq tree children found]

theorem eq_of_once {front' back' : List NodeId} (once : (front ++ n :: back).Nodup)
    (same : front ++ n :: back = front' ++ n :: back') : front = front' := by
  have fresh : n ∉ front ++ back := (nodup_cons.mp (nodup_middle.mp once)).1
  rw [mem_append, not_or] at fresh
  exact ((append_cons_inj_of_notMem fresh.1 fresh.2).mp same).1

theorem outside_iff (tree : doc.IsTree parent)
    (children : doc.children parent = left ++ ((before ++ n :: after) ++ tail)) (kept : ClosesNoMore doc 0 before)
    (element : (doc.kind n).isElement = true) : closed doc before = opened doc before ↔
      ∀ marker ∈ before ++ n :: after, isMarker doc marker regionStart = true → n ∉ regionNodes doc marker := by
  have bound := kept.whole
  refine ⟨fun level marker mem opens hidden => ?_, fun outside => ?_⟩
  · obtain ⟨one, two, split⟩ := append_of_mem mem
    have here : doc.children parent = (left ++ one) ++ marker :: (two ++ tail) := by rw [children, split]; simp
    obtain ⟨_, rest, cut, ends, calm, -⟩ := exists_cut doc (two ++ tail)
    rw [cut] at here ends
    rw [regionNodes_eq tree here ends] at hidden
    obtain ⟨three, four, rfl⟩ := append_of_mem hidden
    have whole : doc.children parent = (left ++ before) ++ n :: (after ++ tail) := by simp [children]
    have same : (left ++ before) ++ n :: (after ++ tail) = (left ++ one ++ marker :: three) ++ n :: (four ++ rest) := by
      rw [← whole, here]
      simp
    have front := eq_of_once (whole ▸ tree.lists.once) same
    rw [append_assoc, append_cancel_left_eq] at front
    subst front
    -- all that the marker opens is closed again behind it only, so a region is open at the node
    have early := kept one (prefix_append one _)
    have late := calm three (prefix_append three _)
    have counts := counts_of_opening opens
    rw [opened_append, closed_append, opened_cons doc marker, closed_cons doc marker] at level
    omega
  · by_contra uneven
    obtain ⟨one, marker, two, rfl, opens, calm⟩ := exists_unclosed (show closed doc before < opened doc before by omega)
    have around : doc.children parent = (left ++ one) ++ marker :: (two ++ n :: (after ++ tail)) := by simp [children]
    exact outside marker (by simp) opens (mem_regionNodes tree around calm element)

end Ranges

section Takes

variable {lead range free : List NodeId} {claim : Claim} {tag : String}

theorem ClosesNoMore.behind (kept : ClosesNoMore doc 1 (before ++ ending :: after))
    (closes : isMarker doc ending regionEnd = true) (level : closed doc before = opened doc before) :
    ClosesNoMore doc 0 after := by
  have later := (closesNoMore_cons.mp (closesNoMore_append.mp kept).2).2
  have counts := counts_of_closing closes
  rwa [show 1 + opened doc before - closed doc before + opened doc [ending] - closed doc [ending] = 0 by omega] at later

theorem passes_region (tree : doc.IsTree parent) (children : doc.children parent = lead ++ n :: (rest ++ tail))
    (kept : ClosesNoMore doc 1 rest) (level : tail = [] ∨ closed doc rest = 1 + opened doc rest) :
    (regionEnd? doc n).bind doc.next? = none ∧ outermost doc 1 rest = [] ∨
      ∃ front after, doc.children parent = front ++ (after ++ tail) ∧ after.length < rest.length ∧
        (regionEnd? doc n).bind doc.next? = (after ++ tail).head? ∧ outermost doc 1 rest = outermost doc 0 after ∧
          ClosesNoMore doc 0 after ∧ (tail = [] ∨ closed doc after = opened doc after) := by
  rw [regionEnd?_eq tree children]
  cases found : closing? doc 0 rest with
  | none =>
    have calm := closing?_eq_none_iff.mp found
    have bound := calm.whole
    obtain rfl := level.resolve_right (by omega)
    rw [append_nil, found]
    exact .inl ⟨rfl, outermost_hidden calm⟩
  | some ending =>
    obtain ⟨before, after, rfl, closes, even, calm⟩ := closing?_eq_some_iff.mp found
    have ending_eq : closing? doc 0 (before ++ ending :: after ++ tail) = some ending :=
      closing?_eq_some_iff.mpr ⟨before, after ++ tail, by simp, closes, even, calm⟩
    have around : doc.children parent = (lead ++ n :: before) ++ ending :: (after ++ tail) := by simp [children]
    have next : doc.next? ending = (after ++ tail).head? := (around ▸ tree.lists : doc.Lists parent _).next?
    have counts := counts_of_closing closes
    rw [opened_append, closed_append, opened_cons doc ending, closed_cons doc ending] at level
    refine .inr ⟨lead ++ n :: before ++ [ending], after, by simp [children], ?_, ?_, ?_, ?_, ?_⟩
    · rw [length_append, length_cons]
      omega
    · rw [ending_eq, Option.bind_some, next]
    · exact outermost_behind closes (by omega) calm
    · exact kept.behind closes (by omega)
    · exact level.imp_right fun same => by omega

theorem firstElement?_eq (tree : doc.IsTree parent) (children : doc.children parent = lead ++ (rest ++ tail))
    (kept : ClosesNoMore doc 0 rest) (level : tail = [] ∨ closed doc rest = opened doc rest) (enough : rest.length ≤ fuel) :
    Claim.firstElement? doc tail.head? fuel (rest ++ tail).head? = (outermost doc 0 rest).head? := by
  induction fuel generalizing lead rest with
  | zero =>
    rw [length_eq_zero_iff.mp (Nat.le_zero.mp enough)]
    rfl
  | succ fuel ih =>
    cases rest with
    | nil => cases tail <;> simp [Claim.firstElement?, outermost]
    | cons n rest =>
      have lists := tree.lists
      rw [children] at lists
      have apart : tail.head? ≠ some n := by
        intro first
        have once := (nodup_append.mp lists.once).2.1
        exact (nodup_cons.mp once).1 (mem_append_right rest (mem_of_mem_head? first))
      obtain ⟨passes, later⟩ := closesNoMore_cons.mp kept
      rw [opened_cons doc n, closed_cons doc n] at level
      rw [length_cons] at enough
      rw [cons_append, head?_cons, Claim.firstElement?, if_neg apart, outermost]
      by_cases opens : isMarker doc n regionStart = true
      · obtain ⟨one, zero⟩ := counts_of_opening opens
        have plain : ¬ (doc.kind n).isElement = true := fun element => by
          simp [unmarked_of_element element] at opens
        rw [one, zero] at later ⊢
        rw [if_pos opens, if_neg (fun both => plain both.2)]
        rcases passes_region tree children later (level.imp_right fun even => by omega) with
          ⟨ended, none⟩ | ⟨front, after, around, shorter, onward, outer, calm, even⟩
        · rw [ended, none]
          cases fuel <;> rfl
        · rw [onward, outer]
          exact ih around calm even (by omega)
      · rw [if_neg opens]
        by_cases element : (doc.kind n).isElement = true
        · simp [element]
        · have unclosing : ¬ isMarker doc n regionEnd = true := fun closes =>
            closesNoMore_singleton.mp passes ⟨closes, rfl⟩
          have quiet : opened doc [n] = 0 ∧ closed doc [n] = 0 := by
            simp [opened_singleton, closed_singleton, opens, unclosing]
          have around : doc.children parent = (lead ++ [n]) ++ (rest ++ tail) := by simp [children]
          rw [quiet.1, quiet.2] at level later ⊢
          rw [if_neg element, if_neg (fun both => element both.2), lists.next?]
          exact ih around later (by simpa using level) (Nat.le_of_succ_le_succ enough)

/-- In a later state of the document a parent has the same children, which are still the same elements, texts and
comments; whatever has become of the rest. -/
structure SameChildren (doc next : Document η π) (parent : NodeId) : Prop where
  tree : next.IsTree parent
  children_eq : next.children parent = doc.children parent
  kind_eq : ∀ n ∈ doc.children parent, next.kind n = doc.kind n
  data_eq : ∀ n ∈ doc.children parent, next.data n = doc.data n

section

variable (same : SameChildren doc next parent)
include same

theorem SameChildren.isMarker_eq (mem : n ∈ doc.children parent) (mark : String) :
    isMarker next n mark = isMarker doc n mark := by
  rw [isMarker, isMarker, isComment, isComment, same.kind_eq n mem, same.data_eq n mem]

section

variable (mem : nodes ⊆ doc.children parent)
include mem

theorem SameChildren.opened_eq : opened next nodes = opened doc nodes :=
  countP_congr fun n member => by rw [same.isMarker_eq (mem member)]

theorem SameChildren.closed_eq : closed next nodes = closed doc nodes :=
  countP_congr fun n member => by rw [same.isMarker_eq (mem member)]

theorem SameChildren.closesNoMore (kept : ClosesNoMore doc depth nodes) : ClosesNoMore next depth nodes := by
  intro part starts
  have within : part ⊆ doc.children parent := Subset.trans starts.subset mem
  rw [same.opened_eq within, same.closed_eq within]
  exact kept part starts

theorem SameChildren.outermost_eq (depth : Nat) : outermost next depth nodes = outermost doc depth nodes := by
  induction nodes generalizing depth with
  | nil => rfl
  | cons n _ ih =>
    obtain ⟨here, later⟩ := cons_subset.mp mem
    have single : [n] ⊆ doc.children parent := by simpa using here
    rw [outermost, outermost, same.opened_eq single, same.closed_eq single, same.kind_eq n here, ih later]

end

end

/-- Whether a node is an element of a tag, whatever the case of its letters is. -/
def bears (doc : Document η π) (tag : String) (n : NodeId) : Bool :=
  ((doc.tag? n).map fun t => Text.sameIgnoringCase t tag).getD false

theorem SameChildren.bears_eq (same : SameChildren doc next parent) (mem : n ∈ doc.children parent) (tag : String) :
    bears next tag n = bears doc tag n := by
  rw [bears, bears, tag?, tag?, same.kind_eq n mem]

/-- A claim that has `rest` left to give elements from, up to `tail`. -/
structure StillHas (doc : Document η π) (parent : NodeId) (claim : Claim) (rest tail : List NodeId) : Prop where
  children : ∃ lead, doc.children parent = lead ++ (rest ++ tail)
  next_eq : claim.next = (rest ++ tail).head?
  ending_eq : claim.ending = tail.head?
  kept : ClosesNoMore doc 0 rest
  level : tail = [] ∨ closed doc rest = opened doc rest

section

variable (has : StillHas doc parent claim rest tail)
include has

theorem StillHas.inside : rest ⊆ doc.children parent := by
  obtain ⟨_, children⟩ := has.children
  intro n mem
  simp [children, mem]

theorem StillHas.firstElement? (same : SameChildren doc next parent) :
    Claim.firstElement? next claim.ending next.nodes.size claim.next = (outermost doc 0 rest).head? := by
  have mem := has.inside
  obtain ⟨_, children⟩ := has.children
  rw [← same.children_eq] at children
  have lists := same.tree.lists
  have once := lists.once
  rw [children] at once
  have enough : rest.length ≤ next.nodes.size := by
    refine length_le_size (nodup_append.mp (nodup_append.mp once).2.1).1 fun n member => ?_
    exact lt_size_of_lists lists n (by simp [children, member])
  have level : tail = [] ∨ closed next rest = opened next rest := by
    rw [same.opened_eq mem, same.closed_eq mem]
    exact has.level
  rw [has.next_eq, has.ending_eq, ← same.outermost_eq mem]
  exact firstElement?_eq same.tree children (same.closesNoMore mem has.kept) level enough

theorem StillHas.onward (same : SameChildren doc next parent) (free_eq : outermost doc 0 rest = n :: free) :
    ∃ later, StillHas doc parent { claim with next := next.next? n } later tail ∧ outermost doc 0 later = free := by
  have split : outermost doc 0 rest = [] ++ n :: free := free_eq
  obtain ⟨element, front, back, rfl, level, free_eq⟩ := exists_of_outermost has.kept split
  obtain ⟨lead, children⟩ := has.children
  have lists := same.tree.lists
  have around : doc.children parent = (lead ++ front) ++ n :: (back ++ tail) := by simp [children]
  rw [same.children_eq, around] at lists
  refine ⟨back, ⟨⟨lead ++ front ++ [n], by simp [around]⟩, lists.next?, has.ending_eq, ?_, ?_⟩, free_eq⟩
  · have later := (closesNoMore_cons.mp (closesNoMore_append.mp has.kept).2).2
    rwa [level_of_element element, level, Nat.sub_self] at later
  · refine has.level.imp_right fun even => ?_
    have counts := counts_of_element element
    rw [opened_append, closed_append, opened_cons doc n, closed_cons doc n] at even
    omega

end

/-- What a claim gives when it is asked for one element after the other, each time of a tag and as the document then is. -/
def takeAll (claim : Claim) : List (Document η π × String) → List NodeId
  | [] => []
  | (doc, tag) :: calls =>
    let (found, claim) := claim.takeElement doc tag
    found.toList ++ takeAll claim calls

/-- What is taken of elements that are offered in order: each time the first that is left, if it has the tag. -/
def taken (doc : Document η π) : (free : List NodeId) → (tags : List String) → List NodeId
  | [], _ => []
  | _, [] => []
  | n :: free, tag :: tags => if bears doc tag n then n :: taken doc free tags else taken doc (n :: free) tags

theorem taken_sublist (doc : Document η π) (free : List NodeId) (tags : List String) : (taken doc free tags).Sublist free := by
  fun_induction taken doc free tags with
  | case1 => exact .slnil
  | case2 => exact nil_sublist _
  | case3 n _ _ _ _ ih => exact ih.cons_cons n
  | case4 _ _ _ _ _ ih => exact ih

theorem StillHas.takeAll_eq (has : StillHas doc parent claim rest tail) (calls : List (Document η π × String))
    (same : ∀ call ∈ calls, SameChildren doc call.1 parent) :
    takeAll claim calls = taken doc (outermost doc 0 rest) (calls.map Prod.snd) := by
  induction calls generalizing claim rest with
  | nil => cases free : outermost doc 0 rest <;> rfl
  | cons call _ ih =>
    obtain ⟨next, tag⟩ := call
    have here : SameChildren doc next parent := same (next, tag) (by simp)
    have later := fun call member => same call (mem_cons_of_mem (next, tag) member)
    rw [takeAll, Claim.takeElement, has.firstElement? here]
    cases free_eq : outermost doc 0 rest with
    | nil => simpa [free_eq, taken] using ih has later
    | cons n =>
      have mem : n ∈ rest := (outermost_sublist doc 0 rest).subset (by simp [free_eq])
      have fits : ((next.tag? n).map fun t => Text.sameIgnoringCase t tag).getD false = bears doc tag n :=
        here.bears_eq (has.inside mem) tag
      rw [head?_cons]
      simp only [fits]
      rw [map_cons, taken]
      by_cases same : bears doc tag n = true
      · obtain ⟨_, onward, behind⟩ := has.onward here free_eq
        rw [if_pos same, if_pos same]
        simp only [Option.toList_some]
        rw [ih onward later, behind]
        rfl
      · rw [if_neg same, if_neg same]
        simpa [free_eq] using ih has later

end Takes

section Matching

variable {claim : Claim}

/-- A claim of what a parent holds, or of the region that a marker among its children opens. -/
inductive ClaimUnder (doc : Document η π) (parent : NodeId) : Claim → Prop
  | sole : ClaimUnder doc parent (.ofParent doc parent)
  | region {marker : NodeId} {claim : Claim} (inside : marker ∈ doc.children parent)
    (opens : isMarker doc marker regionStart = true) (made : Claim.ofMarker? doc marker = some claim) :
    ClaimUnder doc parent claim

theorem ClaimUnder.stillHas (tree : doc.IsTree parent) (under : ClaimUnder doc parent claim) :
    ∃ lead range tail, doc.children parent = lead ++ (range ++ tail) ∧ claim.nodes doc = range ∧
      StillHas doc parent claim range tail := by
  cases under with
  | sole =>
    obtain ⟨range, tail, cut, ends, kept, level⟩ := exists_cut doc (doc.children parent)
    have first : doc.firstChild? parent = (range ++ tail).head? := by rw [firstChild?, cut]
    have lists : doc.Lists parent ([] ++ (range ++ tail)) := cut ▸ tree.lists
    exact ⟨[], range, tail, cut, claim_nodes lists ⟨first, ends⟩, ⟨[], cut⟩, first, ends, kept, level⟩
  | @region marker _ mem _ made =>
    obtain ⟨left, right, children⟩ := append_of_mem mem
    obtain ⟨range, tail, rfl, ends, kept, level⟩ := exists_cut doc right
    have lists := tree.lists
    rw [children] at lists
    have around : doc.children parent = (left ++ [marker]) ++ (range ++ tail) := by simp [children]
    have above : doc.parent? marker = some parent := lists.parents marker (by simp)
    have made : (tail.head?.bind fun ending => some (Claim.make parent (doc.next? marker) (some ending))) = some claim := by
      rw [← ends, ← regionEnd?_eq tree children]
      simpa [Claim.ofMarker?, above] using made
    cases tail with
    | nil => cases made
    | cons =>
      obtain rfl := Option.some.inj made
      have first := lists.next?
      exact ⟨_, range, _, around, claim_nodes (around ▸ tree.lists) ⟨first, rfl⟩, ⟨_, around⟩, first, rfl, kept, level⟩

/-- The elements that a claim has to give: those of its range that stand in no region opened there. -/
def IsFree (doc : Document η π) (claim : Claim) (n : NodeId) : Prop :=
  n ∈ claim.nodes doc ∧ (doc.kind n).isElement = true ∧
    ∀ marker ∈ claim.nodes doc, isMarker doc marker regionStart = true → n ∉ regionNodes doc marker

/-- Claims take elements in order: what is taken by calls are elements that the claim has to give, each once and in the
order of the siblings; and each call takes the first that is left, if it has the tag that is asked for. -/
structure TakesInOrder (doc : Document η π) (parent : NodeId) (claim : Claim) (calls : List (Document η π × String)) :
    Prop where
  range : claim.nodes doc <:+: doc.children parent
  ordered : (takeAll claim calls).Sublist (claim.nodes doc)
  once : (takeAll claim calls).Nodup
  outside : ∀ n ∈ takeAll claim calls, IsFree doc claim n
  taken_eq : ∃ free, free.Sublist (claim.nodes doc) ∧ (∀ n, n ∈ free ↔ IsFree doc claim n) ∧
    takeAll claim calls = taken doc free (calls.map Prod.snd)

theorem ClaimUnder.takesInOrder (tree : doc.IsTree parent) (under : ClaimUnder doc parent claim)
    (calls : List (Document η π × String)) (same : ∀ call ∈ calls, SameChildren doc call.1 parent) :
    TakesInOrder doc parent claim calls := by
  obtain ⟨lead, range, tail, children, nodes_eq, has⟩ := under.stillHas tree
  have takes := has.takeAll_eq calls same
  have ordered := outermost_sublist doc 0 range
  have fewer := taken_sublist doc (outermost doc 0 range) (calls.map Prod.snd)
  have once : range.Nodup := by
    have all := tree.lists.once
    rw [children] at all
    exact (nodup_append.mp (nodup_append.mp all).2.1).1
  have free : ∀ n, n ∈ outermost doc 0 range ↔ IsFree doc claim n := by
    intro n
    rw [mem_outermost_iff has.kept, IsFree, nodes_eq]
    constructor
    · rintro ⟨element, _, _, rfl, level⟩
      have kept := (closesNoMore_append.mp has.kept).1
      exact ⟨by simp, element, (outside_iff tree children kept element).mp level⟩
    · rintro ⟨mem, element, outside⟩
      obtain ⟨front, back, rfl⟩ := append_of_mem mem
      have kept := (closesNoMore_append.mp has.kept).1
      exact ⟨element, front, back, rfl, (outside_iff tree children kept element).mpr outside⟩
  exact
    { range := ⟨lead, tail, by rw [nodes_eq, children, append_assoc]⟩
      ordered := by rw [takes, nodes_eq]; exact fewer.trans ordered
      once := by rw [takes]; exact once.sublist (fewer.trans ordered)
      outside := fun n member => (free n).mp (fewer.subset (takes ▸ member))
      taken_eq := ⟨outermost doc 0 range, nodes_eq ▸ ordered, free, takes⟩ }

/-- The end of a region is the first marker among the siblings behind its start at which more have been closed than opened,
and that of a claim for all a parent holds the first such marker among the children; and from every claim elements are
taken in order, as long as the siblings stay the same. -/
theorem markers_match_as_brackets (tree : doc.IsTree parent) :
    (∀ left marker right ending, doc.children parent = left ++ marker :: right →
      (regionEnd? doc marker = some ending ↔ FirstUnmatched doc right ending)) ∧
    (∀ ending, (Claim.ofParent doc parent).ending = some ending ↔ FirstUnmatched doc (doc.children parent) ending) ∧
    ∀ claim, ClaimUnder doc parent claim → ∀ calls : List (Document η π × String),
      (∀ call ∈ calls, SameChildren doc call.1 parent) → TakesInOrder doc parent claim calls := by
  refine ⟨fun left marker right ending children => ?_, fun ending => closing?_eq_some_iff_firstUnmatched,
    fun claim under calls same => under.takesInOrder tree calls same⟩
  rw [regionEnd?_eq tree children]
  exact closing?_eq_some_iff_firstUnmatched

/-- Rows in a region, one of them in a region of its own and one with a marker below it; and a marker that closes nothing. -/
def markedRows : Document Unit Unit where
  nodes := #[
    { kind := .element "ul" false, children := [1, 2, 4, 5, 6, 7, 8, 9, 10, 11] },
    { kind := .comment, data := "$", parent := some 0 },
    { kind := .element "li" false, parent := some 0, children := [3] },
    { kind := .comment, data := "/$", parent := some 2 }, { kind := .comment, data := "$", parent := some 0 },
    { kind := .element "li" false, parent := some 0 }, { kind := .comment, data := "/$", parent := some 0 },
    { kind := .element "li" false, parent := some 0 }, { kind := .comment, data := "/$", parent := some 0 },
    { kind := .element "li" false, parent := some 0 }, { kind := .comment, data := "/$", parent := some 0 },
    { kind := .element "li" false, parent := some 0 }]

theorem markers_match_as_brackets_markedRows :
    markedRows.IsTree 0 ∧ FirstUnmatched markedRows [2, 4, 5, 6, 7, 8, 9, 10, 11] 8 ∧
      FirstUnmatched markedRows (markedRows.children 0) 10 ∧
        takeAll (.make 0 (some 2) (some 8)) [(markedRows, "li"), (markedRows, "p"), (markedRows, "LI")] = [2, 7] ∧
          IsFree markedRows (.make 0 (some 2) (some 8)) 7 := by
  have tree : markedRows.IsTree 0 := isTree_of_numbered (by decide) (by decide)
  have same : SameChildren markedRows markedRows 0 := ⟨tree, rfl, fun _ _ => rfl, fun _ _ => rfl⟩
  obtain ⟨region, sole, takes⟩ := markers_match_as_brackets tree
  have inside : 1 ∈ markedRows.children 0 := by decide
  have under : ClaimUnder markedRows 0 (.make 0 (some 2) (some 8)) := .region inside (by decide) rfl
  have calls := takes _ under [(markedRows, "li"), (markedRows, "p"), (markedRows, "LI")] (by simp [same])
  have given : takeAll (.make 0 (some 2) (some 8)) [(markedRows, "li"), (markedRows, "p"), (markedRows, "LI")] = [2, 7] := by
    decide +kernel
  exact ⟨tree, (region [] 1 _ 8 rfl).mp (by decide), (sole 10).mp (by decide), given, calls.outside 7 (by simp [given])⟩

end Matching

end LiveMarkup.Live
