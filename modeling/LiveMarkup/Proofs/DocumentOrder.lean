import LiveMarkup.Document.Walker
import LiveMarkup.Proofs.Records

/-!
Trees in a document and the order in which a walk visits their nodes: a node, then what stands below it, then what
stands behind it. From a child of the root of a walk this is all that stands below the child, and then the later
children, each with all that stands below it.
-/

namespace LiveMarkup.Document
open List Option

variable {η π : Type} {doc : Document η π} {m : NodeId} {nodes : List NodeId}

section Trees

variable {n top c : NodeId}

/-- Below a node there stands a finite tree in which parents and children know each other. -/
inductive IsTree (doc : Document η π) : NodeId → Prop
  | node {n : NodeId} (lists : doc.Lists n (doc.children n)) (below : ∀ c ∈ doc.children n, IsTree doc c) : IsTree doc n

inductive Below (doc : Document η π) (top : NodeId) : NodeId → Prop
  | self : Below doc top top
  | child {n c : NodeId} (above : Below doc top n) (inside : c ∈ doc.children n) : Below doc top c

theorem IsTree.lists {n : NodeId} (tree : doc.IsTree n) : doc.Lists n (doc.children n) := by
  cases tree with
  | node lists => exact lists

theorem IsTree.child (tree : doc.IsTree n) (mem : c ∈ doc.children n) : doc.IsTree c := by
  cases tree with
  | node _ below => exact below c mem

theorem IsTree.leaf (present : (doc.node? n).isSome) (empty : doc.children n = []) : doc.IsTree n :=
  .node ⟨present, rfl, by simp [empty], by simp [empty]⟩ (by simp [empty])

theorem isTree_of_numbered
    (each : ∀ n < doc.nodes.size, (doc.children n).Nodup ∧ ∀ c ∈ doc.children n, doc.parent? c = some n ∧ n < c)
    (mem : n < doc.nodes.size) : doc.IsTree n := by
  induction size : doc.nodes.size - n using Nat.strongRecOn generalizing n with
  | ind count ih =>
    obtain ⟨once, known⟩ := each n mem
    have present : (doc.node? n).isSome := by simp [node?, mem]
    refine .node ⟨present, rfl, once, fun c member => (known c member).1⟩ fun c member => ?_
    obtain ⟨above, later⟩ := known c member
    obtain ⟨_, found⟩ := isSome_iff_exists.mp (present_of_parent? above)
    have nearer : doc.nodes.size - c < count := size ▸ Nat.sub_lt_sub_left mem later
    exact ih _ nearer (lt_size_of_node? found) rfl

theorem Below.isTree (tree : doc.IsTree top) (below : doc.Below top n) : doc.IsTree n := by
  induction below with
  | self => exact tree
  | child _ mem ih => exact ih.child mem

theorem Below.trans {middle : NodeId} (upper : doc.Below top middle) (lower : doc.Below middle n) : doc.Below top n := by
  induction lower with
  | self => exact upper
  | child _ mem ih => exact ih.child mem

theorem Below.cases_top (below : doc.Below top n) : n = top ∨ ∃ c ∈ doc.children top, doc.Below c n := by
  induction below with
  | self => exact .inl rfl
  | child _ mem ih =>
    right
    rcases ih with rfl | ⟨c, first, lower⟩
    · exact ⟨_, mem, .self⟩
    · exact ⟨c, first, lower.child mem⟩

theorem IsTree.acyclic (tree : doc.IsTree n) (mem : c ∈ doc.children n) : ¬ doc.Below c n := by
  induction tree generalizing c with
  | node _ _ ih =>
    intro circle
    rcases circle.cases_top with same | ⟨d, first, lower⟩
    · subst same
      exact ih _ mem mem .self
    · exact ih c mem first (lower.child mem)

theorem Below.parent? (tree : doc.IsTree top) (below : doc.Below top n) (apart : n ≠ top) :
    ∃ parent, doc.parent? n = some parent ∧ doc.Below top parent := by
  cases below with
  | self => exact absurd rfl apart
  | child above mem => exact ⟨_, (above.isTree tree).lists.parents _ mem, above⟩

theorem IsTree.disjoint {d : NodeId} (tree : doc.IsTree n) (first : c ∈ doc.children n) (second : d ∈ doc.children n)
    (apart : c ≠ d) (left : doc.Below c m) (right : doc.Below d m) : False := by
  have known : ∀ x ∈ doc.children n, doc.parent? x = some n := tree.lists.parents
  induction left with
  | self =>
    obtain ⟨_, above, lower⟩ := right.parent? (tree.child second) apart
    rw [known c first] at above
    obtain rfl := some.inj above
    exact tree.acyclic second lower
  | child upper mem ih =>
    rename_i q m
    have parent : doc.parent? m = some q := (upper.isTree (tree.child first)).lists.parents _ mem
    by_cases same : m = d
    · subst same
      rw [known m second] at parent
      obtain rfl := some.inj parent
      exact tree.acyclic first upper
    · obtain ⟨_, above, lower⟩ := right.parent? (tree.child second) same
      rw [parent] at above
      obtain rfl := some.inj above
      exact ih lower

end Trees

section Preorder

variable {n : NodeId} {siblings front back : List NodeId}

mutual

inductive Spans (doc : Document η π) : NodeId → List NodeId → Prop
  | node {n : NodeId} {nodes : List NodeId} (below : SpansAll doc (doc.children n) nodes) : Spans doc n (n :: nodes)

inductive SpansAll (doc : Document η π) : List NodeId → List NodeId → Prop
  | nil : SpansAll doc [] []
  | cons {n : NodeId} {siblings first others : List NodeId} (here : Spans doc n first)
      (later : SpansAll doc siblings others) : SpansAll doc (n :: siblings) (first ++ others)

end

theorem exists_spansAll (each : ∀ n ∈ siblings, ∃ nodes, doc.Spans n nodes) : ∃ nodes, doc.SpansAll siblings nodes := by
  induction siblings with
  | nil => exact ⟨[], .nil⟩
  | cons n _ ih =>
    obtain ⟨first, here⟩ := each n (by simp)
    obtain ⟨others, later⟩ := ih fun m mem => each m (mem_cons_of_mem n mem)
    exact ⟨first ++ others, .cons here later⟩

theorem SpansAll.split (spans : doc.SpansAll (front ++ back) nodes) :
    ∃ one two, nodes = one ++ two ∧ doc.SpansAll front one ∧ doc.SpansAll back two := by
  induction front generalizing nodes with
  | nil => exact ⟨[], nodes, rfl, .nil, spans⟩
  | cons _ _ ih =>
    cases spans with
    | cons here later =>
      obtain ⟨one, two, rfl, before, behind⟩ := ih later
      exact ⟨_ ++ one, two, by simp, .cons here before, behind⟩

theorem SpansAll.divide {c : NodeId} (spans : doc.SpansAll (front ++ c :: back) nodes) :
    ∃ one part two, nodes = one ++ (part ++ two) ∧ doc.Spans c part ∧ doc.SpansAll back two := by
  obtain ⟨one, _, rfl, _, rest⟩ := spans.split
  cases rest with
  | cons here later => exact ⟨one, _, _, rfl, here, later⟩

theorem SpansAll.append {one two : List NodeId} (first : doc.SpansAll front one)
    (later : doc.SpansAll back two) : doc.SpansAll (front ++ back) (one ++ two) := by
  induction front generalizing one with
  | nil =>
    cases first
    exact later
  | cons _ _ ih =>
    cases first with
    | cons here behind =>
      rw [append_assoc]
      exact .cons here (ih behind)

theorem SpansAll.head?_eq (spans : doc.SpansAll siblings nodes) : nodes.head? = siblings.head? := by
  cases spans with
  | nil => rfl
  | cons here =>
    cases here
    rfl

theorem IsTree.spans (tree : doc.IsTree n) : ∃ nodes, doc.Spans n nodes := by
  induction tree with
  | node _ _ ih =>
    obtain ⟨_, below⟩ := exists_spansAll ih
    exact ⟨_, .node below⟩

mutual

theorem Spans.within {n : NodeId} {nodes : List NodeId} (spans : doc.Spans n nodes) : ∀ m ∈ nodes, doc.Below n m := by
  intro m member
  match spans with
  | .node below =>
    rcases mem_cons.mp member with rfl | member
    · exact .self
    · obtain ⟨_, mem, lower⟩ := below.within m member
      exact (Below.self.child mem).trans lower

theorem SpansAll.within {siblings nodes : List NodeId} (spans : doc.SpansAll siblings nodes) :
    ∀ m ∈ nodes, ∃ c ∈ siblings, doc.Below c m := by
  intro m member
  match spans with
  | .nil => simp at member
  | .cons here later =>
    rcases mem_append.mp member with first | other
    · exact ⟨_, by simp, here.within m first⟩
    · obtain ⟨c, mem, lower⟩ := later.within m other
      exact ⟨c, mem_cons_of_mem _ mem, lower⟩

end

theorem SpansAll.once {parent : NodeId} {siblings nodes : List NodeId} (tree : doc.IsTree parent)
    (mem : siblings ⊆ doc.children parent) (once : siblings.Nodup)
    (each : ∀ n ∈ siblings, ∀ nodes, doc.Spans n nodes → nodes.Nodup) (spans : doc.SpansAll siblings nodes) :
    nodes.Nodup := by
  induction siblings generalizing nodes with
  | nil =>
    cases spans
    exact .nil
  | cons n _ ih =>
    cases spans with
    | cons here later =>
      obtain ⟨fresh, once⟩ := nodup_cons.mp once
      refine nodup_append.mpr ⟨each n (by simp) _ here, ?_, ?_⟩
      · exact ih (fun m member => mem (mem_cons_of_mem n member)) once
          (fun m member => each m (mem_cons_of_mem n member)) later
      · rintro m first _ other rfl
        obtain ⟨c, member, lower⟩ := later.within m other
        have apart : n ≠ c := fun same => fresh (same ▸ member)
        exact tree.disjoint (mem (by simp)) (mem (mem_cons_of_mem n member)) apart (here.within m first) lower

theorem Spans.once {n : NodeId} (tree : doc.IsTree n) (spans : doc.Spans n nodes) : nodes.Nodup := by
  induction tree generalizing nodes with
  | node lists below ih =>
    have tree : doc.IsTree _ := .node lists below
    cases spans with
    | node under =>
      refine nodup_cons.mpr ⟨fun member => ?_, under.once tree (Subset.refl _) lists.once ?_⟩
      · obtain ⟨_, mem, lower⟩ := under.within _ member
        exact tree.acyclic mem lower
      · exact fun m mem nodes spans => ih m mem spans

theorem IsTree.lt_size (tree : doc.IsTree n) : n < doc.nodes.size := by
  obtain ⟨_, found⟩ := isSome_iff_exists.mp tree.lists.present
  exact lt_size_of_node? found

theorem Spans.length_le {nodes : List NodeId} (tree : doc.IsTree n) (spans : doc.Spans n nodes) :
    nodes.length ≤ doc.nodes.size :=
  length_le_size (spans.once tree) fun m mem => ((spans.within m mem).isTree tree).lt_size

end Preorder

section Walks

variable {root n : NodeId} {waiting : List (List NodeId)}

/-- A walk below a root has come to a node; `waiting` are the siblings that are still to come on every level, the
innermost first. -/
inductive Cursor (doc : Document η π) (root : NodeId) : NodeId → List (List NodeId) → Prop
  | top {n : NodeId} {left right : List NodeId} (lists : doc.Lists root (left ++ n :: right)) (apart : n ≠ root) :
    Cursor doc root n [right]
  | down {m n : NodeId} {left right : List NodeId} {waiting : List (List NodeId)} (above : Cursor doc root m waiting)
    (lists : doc.Lists m (left ++ n :: right)) (apart : n ≠ root) : Cursor doc root n (right :: waiting)

theorem behind_root (doc : Document η π) (root : NodeId) (fuel : Nat) : doc.behind root fuel root = none := by
  cases fuel <;> simp [behind]

theorem Cursor.behind (cursor : doc.Cursor root n waiting) {fuel : Nat} (enough : waiting.length ≤ fuel) :
    doc.behind root (fuel + 1) n = waiting.flatten.head? := by
  induction cursor generalizing fuel with
  | top lists apart =>
    rename_i n left right
    have next : doc.next? n = right.head? := lists.next?
    have up : doc.parent? n = some root := lists.parents n (by simp)
    cases right with
    | nil => simp [Document.behind, apart, next, up, behind_root]
    | cons first rest => simp [Document.behind, apart, next]
  | down above lists apart ih =>
    rename_i m n left right waiting
    have next : doc.next? n = right.head? := lists.next?
    have up : doc.parent? n = some m := lists.parents n (by simp)
    obtain ⟨_, rfl⟩ := Nat.exists_eq_add_one_of_ne_zero (Nat.ne_of_gt (Nat.lt_of_lt_of_le (by simp) enough))
    have onward := ih (Nat.le_of_succ_le_succ enough)
    cases right with
    | nil => simpa [Document.behind, apart, next, up] using onward
    | cons first rest => simp [Document.behind, apart, next]

/-- Where a climb from a node arrives: at the next sibling of the first node that has one; at nothing when it comes to the
root before that, or to a node without a parent. -/
inductive Climbs (doc : Document η π) (root : NodeId) : NodeId → Option NodeId → Prop
  | root : Climbs doc root root none
  | beside {n next : NodeId} (apart : n ≠ root) (beside : doc.next? n = some next) : Climbs doc root n (some next)
  | up {n parent : NodeId} {found : Option NodeId} (apart : n ≠ root) (last : doc.next? n = none)
    (above : doc.parent? n = some parent) (later : Climbs doc root parent found) : Climbs doc root n found
  | top {n : NodeId} (apart : n ≠ root) (last : doc.next? n = none) (alone : doc.parent? n = none) :
    Climbs doc root n none

/-- The step of a walk: down to the first child, or else to where the climb arrives. -/
inductive Steps (doc : Document η π) (root : NodeId) : NodeId → Option NodeId → Prop
  | down {n child : NodeId} (first : doc.firstChild? n = some child) : Steps doc root n (some child)
  | onward {n : NodeId} {found : Option NodeId} (leaf : doc.firstChild? n = none) (climbs : Climbs doc root n found) :
    Steps doc root n found

theorem Cursor.climbs (cursor : doc.Cursor root n waiting) : doc.Climbs root n waiting.flatten.head? := by
  induction cursor with
  | @top n _ right lists apart =>
    have next : doc.next? n = right.head? := lists.next?
    cases right with
    | nil => exact .up apart next (lists.parents n (by simp)) .root
    | cons => exact .beside apart next
  | @down _ n _ right _ _ lists apart ih =>
    have next : doc.next? n = right.head? := lists.next?
    cases right with
    | nil => exact .up apart next (lists.parents n (by simp)) ih
    | cons => exact .beside apart next

theorem Cursor.steps (cursor : doc.Cursor root n waiting) :
    doc.Steps root n (doc.children n ++ waiting.flatten).head? := by
  cases children : doc.children n with
  | nil => exact .onward (by simp [firstChild?, children]) cursor.climbs
  | cons => exact .down (by simp [firstChild?, children])

theorem Cursor.following (cursor : doc.Cursor root n waiting) (shallow : waiting.length ≤ doc.nodes.size) :
    doc.following root n = (doc.children n ++ waiting.flatten).head? := by
  cases children : doc.children n with
  | nil =>
    simp only [Document.following, firstChild?, children, head?_nil, nil_append]
    exact cursor.behind shallow
  | cons => simp [Document.following, firstChild?, children]

variable (tree : doc.IsTree root) {before after : List NodeId}
include tree

theorem Spans.exists_cursor (spans : doc.Spans root nodes) (below : doc.Below root n) (apart : n ≠ root) :
    ∃ before inner waiting outer, nodes = before ++ n :: (inner ++ outer) ∧ doc.SpansAll (doc.children n) inner ∧
      doc.Cursor root n waiting ∧ doc.SpansAll waiting.flatten outer ∧ waiting.length ≤ before.length := by
  induction below with
  | self => exact absurd rfl apart
  | @child m _ above mem ih =>
    obtain ⟨_, right, children⟩ := append_of_mem mem
    have lists := (above.isTree tree).lists
    rw [children] at lists
    by_cases top : m = root
    · subst top
      cases spans with
      | node under =>
        rw [children] at under
        obtain ⟨one, _, outer, rfl, here, later⟩ := under.divide
        cases here with
        | @node _ inner lower =>
          exact ⟨m :: one, inner, [right], outer, by simp, lower, .top lists apart, by simpa using later, by simp⟩
    · obtain ⟨before, _, waiting, outer, rfl, under, cursor, behind, _⟩ := ih top
      rw [children] at under
      obtain ⟨one, _, two, rfl, here, later⟩ := under.divide
      cases here with
      | @node _ lowest lower =>
        refine ⟨before ++ m :: one, lowest, right :: waiting, two ++ outer, by simp, lower, .down cursor lists apart,
          later.append behind, ?_⟩
        simp only [length_append, length_cons]
        omega

theorem Spans.steps {before after : List NodeId} (spans : doc.Spans root (before ++ n :: after)) :
    doc.Steps root n after.head? ∧ doc.following root n = after.head? := by
  have once := spans.once tree
  have size := spans.length_le tree
  have below := spans.within n (by simp)
  have fresh : n ∉ before ∧ n ∉ after := by
    obtain ⟨_, second, distinct⟩ := nodup_append.mp once
    exact ⟨fun mem => distinct n mem n (by simp) rfl, (nodup_cons.mp second).1⟩
  by_cases top : n = root
  · subst top
    generalize whole : before ++ n :: after = nodes at spans
    cases spans with
    | @node _ rest under =>
      have same : before ++ n :: after = [] ++ n :: rest := whole
      obtain ⟨-, -, rfl⟩ := (append_cons_inj_of_notMem fresh.1 fresh.2).mp same
      rw [under.head?_eq]
      cases children : doc.children n with
      | nil =>
        exact ⟨.onward (by simp [firstChild?, children]) .root, by simp [following, firstChild?, children, behind_root]⟩
      | cons => exact ⟨.down (by simp [firstChild?, children]), by simp [following, firstChild?, children]⟩
  · obtain ⟨_, _, _, _, same, under, cursor, behind, _⟩ := spans.exists_cursor tree below top
    obtain ⟨rfl, -, rfl⟩ := (append_cons_inj_of_notMem fresh.1 fresh.2).mp same
    rw [(under.append behind).head?_eq]
    rw [length_append] at size
    exact ⟨cursor.steps, cursor.following (by omega)⟩

theorem Spans.followingUpTo (spans : doc.Spans root (before ++ n :: after)) (fuel : Nat) :
    doc.followingUpTo root fuel n = after.take fuel := by
  induction fuel generalizing before n after with
  | zero => rfl
  | succ _ ih =>
    rw [Document.followingUpTo, (spans.steps tree).2]
    cases after with
    | nil => rfl
    | cons next after =>
      have onward : doc.Spans root ((before ++ [n]) ++ next :: after) := by simpa using spans
      simp [ih onward]

theorem Spans.allFollowing (spans : doc.Spans root (before ++ n :: after)) : doc.allFollowing root n = after := by
  have size := spans.length_le tree
  simp only [length_append, length_cons] at size
  rw [Document.allFollowing, spans.followingUpTo tree, take_of_length_le (by omega)]

theorem allFollowing_eq {left right : List NodeId} (children : doc.children root = left ++ m :: right) :
    ∃ inner outer, doc.SpansAll (doc.children m) inner ∧ doc.SpansAll right outer ∧
      doc.allFollowing root m = inner ++ outer := by
  obtain ⟨_, spans⟩ := tree.spans
  cases spans with
  | node whole =>
    have around := whole
    rw [children] at around
    obtain ⟨before, _, outer, rfl, here, later⟩ := around.divide
    cases here with
    | @node _ inner under =>
      have spans : doc.Spans root ((root :: before) ++ m :: (inner ++ outer)) := by simpa using Spans.node whole
      exact ⟨inner, outer, under, later, spans.allFollowing tree⟩

end Walks

end LiveMarkup.Document
