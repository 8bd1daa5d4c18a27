import LiveMarkup.Proofs.DocumentOrder

/-!
What a walker over a tree returns. Called until it returns nothing, it returns the accepted nodes below its root that come
after its cursor, each of them once and in document order; and every one of its calls ends.
-/

namespace LiveMarkup.Document
open List

variable {η π : Type} {doc : Document η π} {root n m : NodeId} {nodes before after : List NodeId}

/-- The document order below a root: a node comes before all that stands below it, and what stands below one child comes
before what stands below a later one. -/
inductive Precedes (doc : Document η π) (root : NodeId) : NodeId → NodeId → Prop
  | below {n m : NodeId} (lower : doc.Below n m) (apart : n ≠ m) : Precedes doc root n m
  | beside {parent c d n m : NodeId} {left middle right : List NodeId} (inside : doc.Below root parent)
    (children : doc.children parent = left ++ c :: (middle ++ d :: right)) (first : doc.Below c n)
    (second : doc.Below d m) : Precedes doc root n m

theorem Spans.segment (spans : doc.Spans root nodes) (below : doc.Below root n) :
    ∃ part, part <:+: nodes ∧ doc.Spans n part := by
  induction below with
  | self => exact ⟨nodes, infix_refl nodes, spans⟩
  | @child m _ _ mem ih =>
    obtain ⟨_, among, upper⟩ := ih
    obtain ⟨_, _, children⟩ := append_of_mem mem
    cases upper with
    | node under =>
      rw [children] at under
      obtain ⟨one, part, two, rfl, here, _⟩ := under.divide
      exact ⟨part, .trans ⟨m :: one, two, by simp⟩ among, here⟩

theorem Spans.mem_iff (spans : doc.Spans root nodes) : n ∈ nodes ↔ doc.Below root n := by
  refine ⟨spans.within n, fun below => ?_⟩
  obtain ⟨_, among, here⟩ := spans.segment below
  cases here with
  | node => exact among.subset mem_cons_self

mutual

theorem Spans.ordered {n : NodeId} {nodes : List NodeId} (tree : doc.IsTree n) (mem : doc.Below root n)
    (spans : doc.Spans n nodes) : nodes.Pairwise (doc.Precedes root) := by
  match spans with
  | .node under =>
    have whole : doc.children n = [] ++ doc.children n := rfl
    refine pairwise_cons.mpr ⟨fun m member => ?_, under.ordered tree mem whole⟩
    obtain ⟨_, child, lower⟩ := under.within m member
    refine .below ((Below.self.child child).trans lower) ?_
    rintro rfl
    exact tree.acyclic child lower

theorem SpansAll.ordered {parent : NodeId} {left siblings nodes : List NodeId} (tree : doc.IsTree parent)
    (mem : doc.Below root parent) (children : doc.children parent = left ++ siblings)
    (spans : doc.SpansAll siblings nodes) : nodes.Pairwise (doc.Precedes root) := by
  match spans with
  | .nil => exact .nil
  | @SpansAll.cons _ _ _ c others _ _ here later =>
    have child : c ∈ doc.children parent := by simp [children]
    have onward : doc.children parent = (left ++ [c]) ++ others := by simp [children]
    refine pairwise_append.mpr
      ⟨here.ordered (tree.child child) (mem.child child), later.ordered tree mem onward, ?_⟩
    intro x first y other
    obtain ⟨_, sibling, lower⟩ := later.within y other
    obtain ⟨_, _, rfl⟩ := append_of_mem sibling
    exact .beside mem children (here.within x first) lower

end

theorem Spans.sublist_of_precedes (spans : doc.Spans root nodes) (mem : doc.Below root n)
    (precedes : doc.Precedes root n m) : [n, m].Sublist nodes := by
  cases precedes with
  | below lower apart =>
    obtain ⟨_, among, here⟩ := spans.segment mem
    have listed := here.mem_iff.mpr lower
    cases here with
    | node =>
      have behind := (mem_cons.mp listed).resolve_left apart.symm
      exact ((singleton_sublist.mpr behind).cons_cons n).trans among.sublist
  | @beside parent _ _ _ _ _ _ _ above children first second =>
    obtain ⟨_, among, here⟩ := spans.segment above
    refine Sublist.trans ?_ among.sublist
    cases here with
    | node under =>
      rw [children] at under
      obtain ⟨_, _, _, rfl, one, later⟩ := under.divide
      obtain ⟨between, part, rest, rfl, two, _⟩ := later.divide
      have early := singleton_sublist.mpr (one.mem_iff.mpr first)
      have late : [m].Sublist (between ++ (part ++ rest)) :=
        singleton_sublist.mpr (by simp [two.mem_iff.mpr second])
      exact ((early.append late).trans (sublist_append_right _ _)).cons parent

theorem sublist_pair_iff (once : (before ++ n :: after).Nodup) : [n, m].Sublist (before ++ n :: after) ↔ m ∈ after := by
  refine ⟨fun pair => ?_, fun mem => ?_⟩
  · induction before with
    | nil => exact singleton_sublist.mp (cons_sublist_cons.mp pair)
    | cons first _ ih =>
      obtain ⟨fresh, once⟩ := nodup_cons.mp once
      have apart : n ≠ first := fun same => fresh (by simp [same])
      exact ih once (pair.of_cons_of_ne apart)
  · exact ((singleton_sublist.mpr mem).cons_cons n).trans (sublist_append_right before _)

theorem Spans.mem_after_iff (tree : doc.IsTree root) (spans : doc.Spans root (before ++ n :: after)) :
    m ∈ after ↔ doc.Below root m ∧ doc.Precedes root n m := by
  have mem : doc.Below root n := spans.within n (by simp)
  rw [← sublist_pair_iff (spans.once tree)]
  refine ⟨fun pair => ⟨spans.within m (pair.subset (by simp)), ?_⟩, fun later => spans.sublist_of_precedes mem later.2⟩
  exact pairwise_iff_forall_sublist.mp (spans.ordered tree .self) pair

theorem precedes_root_iff (tree : doc.IsTree root) :
    doc.Below root m ∧ doc.Precedes root root m ↔ doc.Below root m ∧ m ≠ root := by
  obtain ⟨_, spans⟩ := tree.spans
  have whole := spans
  have once := spans.once tree
  cases spans with
  | @node _ rest =>
    have listed : doc.Spans root ([] ++ root :: rest) := whole
    rw [← listed.mem_after_iff tree, ← listed.mem_iff]
    have fresh := (nodup_cons.mp once).1
    refine ⟨fun mem => ⟨by simp [mem], fun same => fresh (same ▸ mem)⟩, fun ⟨mem, apart⟩ => ?_⟩
    exact (mem_cons.mp mem).resolve_left apart

/-- A search from a node on, one step after the other: it finds the first node that is accepted, or nothing when there is no
further step. -/
inductive Seeks (doc : Document η π) (root : NodeId) (accepts : NodeId → Bool) : NodeId → Option NodeId → Prop
  | ended {n : NodeId} (steps : doc.Steps root n none) : Seeks doc root accepts n none
  | accepted {n m : NodeId} (steps : doc.Steps root n (some m)) (here : accepts m = true) :
    Seeks doc root accepts n (some m)
  | passed {n m : NodeId} {found : Option NodeId} (steps : doc.Steps root n (some m)) (other : accepts m = false)
    (later : Seeks doc root accepts m found) : Seeks doc root accepts n found

namespace Walker

/-- What a walker answers when it is called: its search ends and finds just this. -/
structure Answers (walker : Walker) (doc : Document η π) (found : Option NodeId) : Prop where
  seeks : doc.Seeks walker.root walker.accepts walker.current found
  next?_eq : walker.next? doc = found.map fun n => (n, { walker with current := n })

/-- The nodes that a walker returns when it is called until it returns nothing. -/
inductive Yields (doc : Document η π) : Walker → List NodeId → Prop
  | done {walker : Walker} (answers : walker.Answers doc none) : Yields doc walker []
  | more {walker : Walker} {n : NodeId} {nodes : List NodeId} (answers : walker.Answers doc (some n))
    (later : Yields doc { walker with current := n } nodes) : Yields doc walker (n :: nodes)

/-- A walker returns the wanted nodes that it accepts, each of them once, in document order and nothing else. -/
structure Covers (walker : Walker) (doc : Document η π) (wanted : NodeId → Prop) : Prop where
  yields : Yields doc walker (walker.rest doc)
  once : (walker.rest doc).Nodup
  ordered : (walker.rest doc).Pairwise (doc.Precedes walker.root)
  mem_iff : ∀ m, m ∈ walker.rest doc ↔ wanted m ∧ walker.accepts m = true

end Walker

theorem Spans.seeks (tree : doc.IsTree root) (spans : doc.Spans root (before ++ n :: after)) (accepts : NodeId → Bool) :
    doc.Seeks root accepts n (after.find? accepts) := by
  have step := (spans.steps tree).1
  induction after generalizing before n with
  | nil => exact .ended step
  | cons m after ih =>
    have onward : doc.Spans root ((before ++ [n]) ++ m :: after) := by simpa using spans
    by_cases here : accepts m = true
    · rw [find?_cons_of_pos here]
      exact .accepted step here
    · rw [find?_cons_of_neg here]
      exact .passed step (by simpa using here) (ih onward (onward.steps tree).1)

theorem Spans.answers (tree : doc.IsTree root) (spans : doc.Spans root (before ++ n :: after)) (accepts : NodeId → Bool) :
    (Walker.mk root n accepts).Answers doc (after.find? accepts) :=
  ⟨spans.seeks tree accepts, by simp only [Walker.next?, spans.allFollowing tree]⟩

theorem Spans.yields (tree : doc.IsTree root) (spans : doc.Spans root (before ++ n :: after)) (accepts : NodeId → Bool) :
    Walker.Yields doc ⟨root, n, accepts⟩ (after.filter accepts) := by
  induction size : after.length using Nat.strongRecOn generalizing before n after with
  | ind count ih =>
    have answers := spans.answers tree accepts
    cases found : after.find? accepts with
    | none =>
      have refused : after.filter accepts = [] := filter_eq_nil_iff.mpr (find?_eq_none.mp found)
      rw [refused]
      exact .done (found ▸ answers)
    | some m =>
      obtain ⟨here, front, back, rfl, passed⟩ := find?_eq_some_iff_append.mp found
      have refused : front.filter accepts = [] :=
        filter_eq_nil_iff.mpr fun c mem => by simpa using passed c mem
      have onward : doc.Spans root ((before ++ n :: front) ++ m :: back) := by simpa using spans
      have shorter : back.length < count := by
        rw [← size, length_append, length_cons]
        omega
      rw [filter_append, refused, nil_append, filter_cons_of_pos here]
      exact .more (found ▸ answers) (ih back.length shorter onward rfl)

theorem IsTree.covers (tree : doc.IsTree root) (mem : doc.Below root n) (accepts : NodeId → Bool) :
    (Walker.mk root n accepts).Covers doc fun m => doc.Below root m ∧ doc.Precedes root n m := by
  obtain ⟨_, spans⟩ := tree.spans
  obtain ⟨before, after, rfl⟩ := append_of_mem (spans.mem_iff.mpr mem)
  have listed : (after.filter accepts).Sublist (before ++ n :: after) :=
    (filter_sublist.trans (sublist_cons_self n after)).trans (sublist_append_right before _)
  have rest : (Walker.mk root n accepts).rest doc = after.filter accepts := by
    rw [Walker.rest, spans.allFollowing tree]
  constructor
  · exact rest ▸ spans.yields tree accepts
  · exact rest ▸ (spans.once tree).sublist listed
  · exact rest ▸ (spans.ordered tree .self).sublist listed
  · intro m
    rw [rest, mem_filter, spans.mem_after_iff tree]

/-- A new walker returns the nodes below its root, and one that was set to a node those that come after it; whatever the
tree and the filter are, whatever stands around the root, in document order, each once, and then nothing more. -/
theorem walker_in_document_order (tree : doc.IsTree root) (accepts : NodeId → Bool) :
    (Walker.start root accepts).Covers doc (fun m => doc.Below root m ∧ m ≠ root) ∧
      ∀ n, doc.Below root n →
        { Walker.start root accepts with current := n }.Covers doc fun m => doc.Below root m ∧ doc.Precedes root n m := by
  refine ⟨?_, fun n inside => tree.covers inside accepts⟩
  have whole := tree.covers .self accepts
  exact ⟨whole.yields, whole.once, whole.ordered, fun m => (whole.mem_iff m).trans (and_congr_left' (precedes_root_iff tree))⟩

def markedPage : Document Unit Unit where
  nodes := #[
    { kind := .fragment, children := [1, 9] },
    { kind := .element "div" false, parent := some 0, children := [2, 3, 7, 8] },
    { kind := .comment, data := "$", parent := some 1 },
    { kind := .element "p" false, parent := some 1, children := [4, 5, 6] },
    { kind := .comment, data := "$", parent := some 3 }, { kind := .text, data := "x", parent := some 3 },
    { kind := .comment, data := "/$", parent := some 3 }, { kind := .comment, data := "/$", parent := some 1 },
    { kind := .comment, data := "other", parent := some 1 }, { kind := .comment, data := "$", parent := some 0 }]

theorem walker_in_document_order_markedPage : markedPage.IsTree 1 ∧ markedPage.Below 1 6 ∧
      Walker.Yields markedPage (.start 1 markedPage.isComment) [2, 4, 6, 7, 8] ∧
        Walker.Yields markedPage { Walker.start 1 markedPage.isComment with current := 6 } [7, 8] := by
  have tree : markedPage.IsTree 1 := isTree_of_numbered (by decide) (by decide)
  have inside : markedPage.Below 1 6 := (Below.self.child (c := 3) (by decide)).child (by decide)
  have walks := walker_in_document_order tree markedPage.isComment
  have all : (Walker.start 1 markedPage.isComment).rest markedPage = [2, 4, 6, 7, 8] := by decide
  have later : { Walker.start 1 markedPage.isComment with current := 6 }.rest markedPage = [7, 8] := by decide
  exact ⟨tree, inside, all ▸ walks.1.yields, later ▸ (walks.2 6 inside).yields⟩

end LiveMarkup.Document
