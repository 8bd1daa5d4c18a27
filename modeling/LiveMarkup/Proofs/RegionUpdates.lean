import LiveMarkup.Proofs.Showing
import Mathlib.Data.List.Forall2

/-!
Regions over many updates. However often the items of a region change, its parent keeps what stands before and behind
the region, and between them stand the nodes of the items in their order. A region behind a marker gets its end when it
first holds nothing or several items, and keeps it.
-/

namespace LiveMarkup.Live
open Document Reactive Option Region World

variable {η π : Type} {batches : List (List Item)}

section Frames

/-- Nodes keep what is stored of them but their families, and their characters unless they are among `texts`; there may be
new nodes. -/
structure Retains (doc next : Document η π) (texts : List NodeId) : Prop where
  size_le : doc.nodes.size ≤ next.nodes.size
  node?_eq : ∀ m < doc.nodes.size, next.node? m = (doc.node? m).map fun node =>
    { node with parent := next.parent? m, children := next.children m, data := next.data m }
  data_eq : ∀ m < doc.nodes.size, m ∉ texts → next.data m = doc.data m

/-- Texts were made and the characters of some were changed, and all nodes stand where they stood. -/
structure Patched (doc next : Document η π) (texts : List NodeId) : Prop extends Retains doc next texts where
  parent?_eq : ∀ m, next.parent? m = doc.parent? m
  children_eq : ∀ m, next.children m = doc.children m

/-- No nodes but those of `moved` have moved, and only `parent` and where they stood may have other children. -/
structure Spares (doc next : Document η π) (parent : NodeId) (moved : List NodeId) : Prop where
  parent?_eq : ∀ m < doc.nodes.size, m ∉ moved → next.parent? m = doc.parent? m
  children_eq : ∀ m < doc.nodes.size, m ≠ parent → (∀ n ∈ moved, doc.parent? n ≠ some m) → next.children m = doc.children m

variable {doc next last : Document η π} {texts more : List NodeId}

theorem Retains.kind_eq (retains : Retains doc next texts) : ∀ m < doc.nodes.size, next.kind m = doc.kind m := by
  intro m bound
  rw [kind, retains.node?_eq m bound, map_map]
  rfl

theorem Retains.trans (one : Retains doc next texts) (two : Retains next last more) (within : more ⊆ texts) :
    Retains doc last texts where
  size_le := one.size_le.trans two.size_le
  node?_eq m bound := by
    rw [two.node?_eq m (bound.trans_le one.size_le), one.node?_eq m bound, map_map]
    rfl
  data_eq m bound apart := by
    have first := one.data_eq m bound apart
    have second := two.data_eq m (bound.trans_le one.size_le) fun mem => apart (within mem)
    exact second.trans first

theorem retains_of_rearranged (rearranged : Rearranged doc next) (texts : List NodeId) : Retains doc next texts where
  size_le := Nat.le_of_eq rearranged.size_eq.symm
  node?_eq m _ := by
    rw [rearranged.data_eq, Document.data, rearranged.node?_eq]
    cases doc.node? m <;> rfl
  data_eq m _ _ := rearranged.data_eq m

theorem Patched.refl (doc : Document η π) (texts : List NodeId) : Patched doc doc texts :=
  ⟨retains_of_rearranged (.refl doc) texts, fun _ => rfl, fun _ => rfl⟩

theorem Spares.refl (doc : Document η π) (parent : NodeId) (moved : List NodeId) : Spares doc doc parent moved :=
  ⟨fun _ _ _ => rfl, fun _ _ _ _ => rfl⟩

theorem Patched.trans (one : Patched doc next texts) (two : Patched next last more) (within : more ⊆ texts) :
    Patched doc last texts where
  toRetains := one.toRetains.trans two.toRetains within
  parent?_eq m := (two.parent?_eq m).trans (one.parent?_eq m)
  children_eq m := (two.children_eq m).trans (one.children_eq m)

theorem Patched.widen (patched : Patched doc next texts) (within : texts ⊆ more) : Patched doc next more where
  size_le := patched.size_le
  node?_eq := patched.node?_eq
  data_eq m bound apart := patched.data_eq m bound fun mem => apart (within mem)
  parent?_eq := patched.parent?_eq
  children_eq := patched.children_eq

theorem patched_setData (doc : Document η π) (n : NodeId) (data : String) : Patched doc (doc.setData n data) [n] where
  size_le := by simp [setData, modifyNode]
  node?_eq m _ := by
    rw [parent?_setData, children_setData]
    by_cases same : n = m <;> cases found : doc.node? m <;>
      simp [setData, Document.data, parent?, children, same, found]
  data_eq m _ apart := by
    have other : n ≠ m := fun same => apart (by simp [same])
    simp [Document.data, setData, other]
  parent?_eq m := parent?_setData doc n m data
  children_eq m := children_setData doc n m data

theorem patched_create (doc : Document η π) (kind : Kind) (data : String) : Patched doc (doc.create kind data).2 [] where
  size_le := by simp [create]
  node?_eq m bound := by
    rw [Document.data, parent?, children, node?_create, if_neg bound.ne]
    cases doc.node? m <;> rfl
  data_eq m bound _ := by rw [Document.data, node?_create, if_neg bound.ne, Document.data]
  parent?_eq m := by
    by_cases new : m = doc.nodes.size
    · simp [parent?, node?_create, new, node?_ge]
    · simp [parent?, node?_create, new]
  children_eq m := by
    by_cases new : m = doc.nodes.size
    · simp [children, node?_create, new, node?_ge]
    · simp [children, node?_create, new]

theorem present_of_kind {n : NodeId} (solid : doc.kind n ≠ .fragment) : n < doc.nodes.size := by
  by_contra beyond
  simp [kind, node?_ge doc (not_lt.mp beyond)] at solid

theorem Patched.lists (patched : Patched doc next texts) {parent : NodeId} {nodes : List NodeId}
    (lists : doc.Lists parent nodes) : next.Lists parent nodes where
  present := by
    obtain ⟨_, found⟩ := isSome_iff_exists.mp lists.present
    have bound := (lt_size_of_node? found).trans_le patched.size_le
    simp [node?, bound]
  children_eq := (patched.children_eq parent).trans lists.children_eq
  once := lists.once
  parents n mem := (patched.parent?_eq n).trans (lists.parents n mem)

end Frames

section Items

variable {items : List Item} {current : List NodeId} {doc : Document η π} {item : Item} {n : NodeId}

theorem forall₂_append_left {α β : Type} {related : α → β → Prop} {first second : List α} {both : List β}
    (all : List.Forall₂ related (first ++ second) both) :
    ∃ one two, one ++ two = both ∧ List.Forall₂ related first one ∧ List.Forall₂ related second two :=
  ⟨both.take first.length, both.drop first.length, List.take_append_drop .., by
    simpa using List.forall₂_take first.length all, by simpa using List.forall₂_drop first.length all⟩

def Item.node? : Item → Option NodeId
  | .node n => some n
  | .text _ => none

def itemNodes (items : List Item) : List NodeId := items.filterMap Item.node?

@[simp]
theorem itemNodes_node (n : NodeId) (items : List Item) : itemNodes (.node n :: items) = n :: itemNodes items := rfl

@[simp]
theorem itemNodes_text (data : String) (items : List Item) : itemNodes (.text data :: items) = itemNodes items := rfl

/-- A node stands for an item: it is the given node, or a text node with exactly the given characters. -/
def ShowsItem (doc : Document η π) : Item → NodeId → Prop
  | .node n, m => m = n
  | .text data, m => doc.kind m = .text ∧ doc.data m = data

theorem ShowsItem.kept {doc next : Document η π} {texts : List NodeId} (kept : Retains doc next texts) {item : Item}
    {m : NodeId} (shows : ShowsItem doc item m) (apart : m ∉ texts) : ShowsItem next item m := by
  cases item with
  | node => exact shows
  | text =>
    obtain ⟨kind, same⟩ := shows
    have bound : m < doc.nodes.size := present_of_kind (by simp [kind])
    exact ⟨(kept.kind_eq m bound).trans kind, (kept.data_eq m bound apart).trans same⟩

theorem mem_of_itemNodes {nodes : List NodeId} {n : NodeId} (shows : List.Forall₂ (ShowsItem doc) items nodes)
    (mem : n ∈ itemNodes items) : n ∈ nodes := by
  induction shows with
  | nil => cases mem
  | @cons item m _ _ here _ ih =>
    cases item with
    | node given =>
      obtain rfl : m = given := here
      exact List.mem_cons.mpr ((List.mem_cons.mp mem).imp_right ih)
    | text => exact List.mem_cons_of_mem m (ih mem)

/-- The nodes for items are ready: each shows its item, none is there twice, and each was given or is a text, which was
one of the region's or is new. -/
structure Readied (doc next : Document η π) (current : List NodeId) (items : List Item) (nodes : List NodeId) :
    Prop where
  patched : Patched doc next current
  shows : List.Forall₂ (ShowsItem next) items nodes
  once : nodes.Nodup
  origin : ∀ n ∈ nodes, n ∈ itemNodes items ∨ next.kind n = .text ∧ (n ∈ current ∨ doc.nodes.size ≤ n)

theorem mem_itemNodes_cons (mem : n ∈ itemNodes items) : n ∈ itemNodes (item :: items) := by
  cases item <;> simp [mem]

/-- What can be given to be shown: nodes of the document that are neither texts nor fragments. -/
def Given (doc : Document η π) (items : List Item) : Prop :=
  ∀ n ∈ itemNodes items, doc.kind n ≠ .text ∧ doc.kind n ≠ .fragment

theorem Given.patched {doc next : Document η π} {texts : List NodeId} {items : List Item} (given : Given doc items)
    (patched : Patched doc next texts) : Given next items := by
  intro n mem
  rw [patched.kind_eq n (present_of_kind (given n mem).2)]
  exact given n mem

theorem Given.tail (given : Given doc (item :: items)) : Given doc items :=
  fun n mem => given n (mem_itemNodes_cons mem)

theorem Readied.cons {doc middle next : Document η π} {current : List NodeId} {item : Item} {items : List Item}
    {n : NodeId} {nodes : List NodeId} (first : Patched doc middle current)
    (later : Readied middle next (current.drop 1) items nodes) (shows : ShowsItem next item n) (fresh : n ∉ nodes)
    (origin : n ∈ itemNodes (item :: items) ∨ next.kind n = .text ∧ (n ∈ current ∨ doc.nodes.size ≤ n)) :
    Readied doc next current (item :: items) (n :: nodes) where
  patched := first.trans later.patched (List.drop_subset 1 current)
  shows := .cons shows later.shows
  once := List.nodup_cons.mpr ⟨fresh, later.once⟩
  origin m mem := by
    rcases List.mem_cons.mp mem with rfl | mem
    · exact origin
    · rcases later.origin m mem with given | ⟨text, old | new⟩
      · exact .inl (mem_itemNodes_cons given)
      · exact .inr ⟨text, .inl (List.mem_of_mem_drop old)⟩
      · exact .inr ⟨text, .inr (first.size_le.trans new)⟩

theorem Readied.text_fresh {middle next : Document η π} {nodes : List NodeId} (later : Readied middle next current items nodes)
    (given : Given middle items) (text : middle.kind n = .text) (apart : n ∉ current) : n ∉ nodes := by
  intro member
  rcases later.origin n member with mem | ⟨_, old | new⟩
  · exact (given n mem).1 text
  · exact apart old
  · have bound : n < middle.nodes.size := present_of_kind (by simp [text])
    exact lt_irrefl n (bound.trans_le new)

theorem readied_nodesFor (given : Given doc items) (once : (itemNodes items).Nodup) (distinct : current.Nodup)
    (present : ∀ n ∈ current, n < doc.nodes.size) :
    Readied doc (nodesFor current items doc).2 current items (nodesFor current items doc).1 := by
  induction items generalizing doc current with
  | nil => exact ⟨.refl doc current, .nil, .nil, by simp [nodesFor]⟩
  | cons item items ih =>
    have distinct' : (current.drop 1).Nodup := distinct.sublist (List.drop_sublist 1 current)
    have present' : ∀ n ∈ current.drop 1, n < doc.nodes.size := fun n mem => present n (List.mem_of_mem_drop mem)
    cases item with
    | node n =>
      obtain ⟨single, once⟩ := List.nodup_cons.mp once
      obtain ⟨noText, noFragment⟩ := given n (by simp)
      have bound := present_of_kind noFragment
      have later := ih given.tail once distinct' present'
      refine later.cons (.refl doc current) rfl (fun member => ?_) (.inl (by simp))
      rcases later.origin n member with mem | ⟨text, _⟩
      · exact single mem
      · exact noText ((later.patched.kind_eq n bound).symm.trans text)
    | text data =>
      -- whichever text node is taken, it is a text with these characters before the later items are looked at
      have finish : ∀ (middle : Document η π) (n : NodeId), Patched doc middle current → middle.kind n = .text →
          middle.data n = data → n ∉ current.drop 1 → (n ∈ current ∨ doc.nodes.size ≤ n) →
          Readied doc (nodesFor (current.drop 1) items middle).2 current (.text data :: items)
            (n :: (nodesFor (current.drop 1) items middle).1) := by
        intro middle n first text same apart origin
        have later := ih (given.tail.patched first) once distinct' fun m mem =>
          (present' m mem).trans_le first.size_le
        have shows : ShowsItem middle (.text data) n := ⟨text, same⟩
        have kept := shows.kept later.patched.toRetains apart
        exact later.cons first kept (later.text_fresh (given.tail.patched first) text apart) (.inr ⟨kept.1, origin⟩)
      have made := finish (doc.createText data).2 doc.nodes.size
        ((patched_create doc .text data).widen (by simp))
        (by simp [createText, kind, node?_create]) (by simp [createText, Document.data, node?_create])
        (fun mem => lt_irrefl _ (present' _ mem)) (.inr (le_rfl))
      cases current with
      | nil => exact made
      | cons old =>
        by_cases text : doc.isText old = true
        · have kind : doc.kind old = .text := by simpa [isText] using text
          have bound := present old (by simp)
          have patched := patched_setData doc old data
          obtain ⟨node, found⟩ : ∃ node, doc.node? old = some node := by simp [node?, bound]
          have set : (doc.setData old data).data old = data := by simp [Document.data, setData, found]
          simp only [nodesFor, List.head?_cons, text, if_true]
          exact finish _ old (patched.widen (by simp)) ((patched.kind_eq old bound).trans kind) set
            (List.nodup_cons.mp distinct).1 (.inl (by simp))
        · simp only [nodesFor, List.head?_cons, text]
          exact made

end Items

section Swapping

/-- Between its `lead` and its `tail` a parent has the children `new` in place of `old`, and an old one that is not among
the new ones stands nowhere. -/
structure Swapped (doc next : Document η π) (parent : NodeId) (lead old new tail : List NodeId) : Prop where
  rearranged : Rearranged doc next
  lists : next.Lists parent (lead ++ (new ++ tail))
  gone : ∀ n ∈ old, n ∉ new → next.parent? n = none
  spares : Spares doc next parent (old ++ new)

variable {doc : Document η π} {parent m : NodeId} {lead old new tail : List NodeId}

theorem parent?_insertAll (solid : ∀ n ∈ new, doc.isFragment n = false) (parent : NodeId) (mark : Option NodeId)
    (absent : m ∉ new) : (insertAll doc parent new mark).parent? m = doc.parent? m := by
  induction new generalizing doc with
  | nil => rfl
  | cons n new ih =>
    rw [List.mem_cons, not_or] at absent
    have here := solid n List.mem_cons_self
    have later : (insertAll (doc.insertBefore parent n mark) parent new mark).parent? m = _ := ih (fun k mem => by
      rw [isFragment_insertBefore here]
      exact solid k (List.mem_cons_of_mem n mem)) absent.2
    rw [parent?_insertBefore here, if_neg absent.1] at later
    exact later

theorem children_insertAll_of_ne {mark : Option NodeId} (there : (doc.node? parent).isSome) (apart : m ≠ parent)
    (solid : ∀ n ∈ new, doc.isFragment n = false) (away : ∀ n ∈ new, doc.parent? n ≠ some m) :
    (insertAll doc parent new mark).children m = doc.children m := by
  induction new generalizing doc with
  | nil => rfl
  | cons n _ ih =>
    have solid' := solid n (by simp)
    have first : (doc.insertBefore parent n mark).children m = doc.children m := by
      rw [children_insertBefore_of_ne solid' there apart, if_neg (away n (by simp))]
    have stays : ((doc.insertBefore parent n mark).node? parent).isSome := by
      rw [insertBefore_of_solid solid', present_place]
      exact there
    refine (ih stays (fun x mem => ?_) fun x mem => ?_).trans first
    · rw [isFragment_insertBefore solid']
      exact solid x (List.mem_cons_of_mem n mem)
    · rw [parent?_insertBefore solid']
      split
      · exact fun same => apart (Option.some.inj same).symm
      · exact away x (List.mem_cons_of_mem n mem)

variable (task : Replacement doc parent lead old new tail)
include task

theorem swapped_reconcile : Swapped doc (reconcile parent old new tail.head? doc) parent lead old new tail where
  rearranged := rearranged_reconcile parent old new _ doc
  lists := by simpa using reconcile_lists task
  gone n mem absent := by simp [parent?_reconcile task, mem, absent]
  spares := by
    refine ⟨fun m _ absent => ?_, fun m _ apart away => ?_⟩
    · rw [List.mem_append, not_or] at absent
      rw [parent?_reconcile task, if_neg absent.2, if_neg absent.1]
    · rw [children_reconcile_of_ne task apart]
      refine List.filter_eq_self.mpr fun n _ => ?_
      have elsewhere : ¬ (n ∈ new ∧ doc.parent? n = some m) := fun ⟨mem, stands⟩ =>
        away n (List.mem_append_right old mem) stands
      simp only [elsewhere, decide_false, Bool.not_false]

theorem lists_insertAll :
    (insertAll doc parent new tail.head?).Lists parent (lead ++ (old.filter (· ∉ new) ++ new ++ tail)) := by
  induction new generalizing doc old with
  | nil => simpa [insertAll] using task.lists
  | cons n _ ih =>
    have solid := task.solid n (by simp)
    obtain ⟨fresh, once⟩ := List.nodup_cons.mp task.once
    obtain ⟨noLead, noTail⟩ := task.inner n (by simp)
    have placed : (doc.insertBefore parent n tail.head?).Lists parent (lead ++ (old.filter (· != n) ++ [n]) ++ tail) := by
      have moved := task.lists.insertBefore solid
      rw [List.filter_append, filter_ne_of_not_mem noLead, filter_ne_of_not_mem noTail] at moved
      simpa using moved
    have later := ih
      { lists := placed
        once
        solid := fun m mem => by
          rw [isFragment_insertBefore solid]
          exact task.solid m (List.mem_cons_of_mem n mem)
        inner := fun m mem => task.inner m (List.mem_cons_of_mem n mem) }
    rwa [filter_not_mem_concat fresh] at later

theorem swapped_insert_remove :
    Swapped doc ((insertAll doc parent new tail.head?).removeAll (old.filter (· ∉ new))) parent lead old new tail where
  rearranged := (rearranged_insertAll doc parent new _).trans (rearranged_removeAll _ _)
  lists := by
    have removed := refilled_removeAll (lists_insertAll task) (List.subset_append_left (old.filter (· ∉ new)) new)
    rw [filter_leftover old new] at removed
    exact removed.lists
  gone n mem absent := by rw [parent?_removeAll, if_pos (by simp [mem, absent])]
  spares := by
    have stays : ∀ n ∉ new, (insertAll doc parent new tail.head?).parent? n = doc.parent? n := fun n absent =>
      parent?_insertAll task.solid parent _ absent
    refine ⟨fun m _ absent => ?_, fun m _ apart away => ?_⟩
    · rw [List.mem_append, not_or] at absent
      rw [parent?_removeAll, if_neg fun mem => absent.1 (List.mem_of_mem_filter mem), stays m absent.2]
    · have old' : ∀ n ∈ old.filter (· ∉ new), (insertAll doc parent new tail.head?).parent? n = none ∨
          (insertAll doc parent new tail.head?).parent? n = some parent := by
        intro n mem
        obtain ⟨old, absent⟩ := List.mem_filter.mp mem
        rw [stays n (of_decide_eq_true absent)]
        exact .inr (task.lists.parents n (by simp [old]))
      exact (children_removeAll old' apart).trans (children_insertAll_of_ne task.lists.present apart task.solid
        fun n mem => away n (List.mem_append_right old mem))

end Swapping

section StandsBetween

/-- A region stands under its parent between `left` and `right`: behind its marker if it has one, and before its end if it
has one. A region without an end stands before a fixed node, or behind its marker, or at the end of the parent. -/
structure StandsBetween (doc : Document η π) (region : Region) (left right : List NodeId) : Prop where
  lists : doc.Lists region.parent (left ++ region.start.toList ++ region.current ++ region.ending.toList ++ right)
  fixed : region.ending = none → ∀ before, region.before = some before → right.head? = some before
  last : region.ending = none → region.before = none → region.start = none → right = []

variable {doc : Document η π} {region : Region} {left right : List NodeId}

variable (standing : StandsBetween doc region left right)
include standing

theorem StandsBetween.around :
    doc.Lists region.parent ((left ++ region.start.toList) ++ (region.current ++ (region.ending.toList ++ right))) := by
  simpa using standing.lists

theorem StandsBetween.bounded : Bounded region (left ++ region.start.toList) (region.ending.toList ++ right) := by
  unfold Bounded
  split
  · rename_i ending found
    simp [found]
  · rename_i before none found
    simpa [none] using standing.fixed none before found
  · rename_i start noEnding noBefore found
    simp [found]
  · rename_i noEnding noBefore noStart
    simpa [noEnding] using standing.last noEnding noBefore noStart

theorem StandsBetween.mark : region.mark doc = (region.ending.toList ++ right).head? :=
  mark_eq standing.bounded fun _ => standing.around

theorem StandsBetween.apart {n : NodeId} (mem : n ∈ region.current) :
    n ∉ left ++ region.start.toList ∧ n ∉ region.ending.toList ++ right := by
  have once := standing.around.once
  rw [List.nodup_append] at once
  obtain ⟨_, middle, outer⟩ := once
  rw [List.nodup_append] at middle
  exact ⟨fun lead => outer n lead n (List.mem_append_left _ mem) rfl, fun tail => middle.2.2 n mem n tail rfl⟩

theorem StandsBetween.of_lists {next : Document η π} {current : List NodeId}
    (lists : next.Lists region.parent ((left ++ region.start.toList) ++ (current ++ (region.ending.toList ++ right)))) :
    StandsBetween next { region with current } left right :=
  ⟨by simpa using lists, standing.fixed, standing.last⟩

end StandsBetween

section Updating

variable {doc next : Document η π} {region : Region} {left right : List NodeId} {items : List Item}
variable {ready : Document η π} {nodes : List NodeId} {ending : Option NodeId} {middle : Document η π} {asked : Prop}

/-- Items can be shown in a region: no node is among them twice, their nodes are neither texts nor fragments, and none of
them stands beside the region or marks it. -/
structure Showable (doc : Document η π) (region : Region) (left right : List NodeId) (items : List Item) : Prop where
  once : (itemNodes items).Nodup
  given : Given doc items
  inner : ∀ n ∈ itemNodes items, n ∉ left ∧ n ∉ region.start.toList ∧ n ∉ region.ending.toList ∧ n ∉ right

/-- Nodes of items that can take a place in a region: they are no fragments, and none of them stands beside the region or
marks it. -/
structure Placeable (doc : Document η π) (region : Region) (left right : List NodeId) (items : List Item) : Prop where
  solid : ∀ n ∈ itemNodes items, doc.kind n ≠ .fragment
  inner : ∀ n ∈ itemNodes items, n ∉ left ∧ n ∉ region.start.toList ∧ n ∉ region.ending.toList ∧ n ∉ right

theorem Showable.placeable (showable : Showable doc region left right items) : Placeable doc region left right items :=
  ⟨fun n mem => (showable.given n mem).2, showable.inner⟩

/-- What has become of the end of a region: one that was there stays, and a region behind a marker has got one if that was
`asked`, a new closing marker. -/
structure Closing (doc next : Document η π) (region : Region) (ending : Option NodeId) (asked : Prop) : Prop where
  keeps : ∀ e, region.ending = some e → ending = some e
  made : region.ending = none → (ending.isSome ↔ region.start.isSome ∧ asked)
  marker : region.ending = none → ∀ e, ending = some e → isMarker next e regionEnd = true
  fresh : region.ending = none → ∀ e, ending = some e → doc.nodes.size ≤ e

theorem Closing.unchanged (no : region.ending = none → region.start.isSome → ¬ asked) :
    Closing doc next region region.ending asked where
  keeps _ found := found
  made none := by
    rw [none]
    simpa using no none
  marker none e found := by simp [none] at found
  fresh none e found := by simp [none] at found

theorem isMarker_retained {texts : List NodeId} (kept : Retains doc next texts) {e : NodeId} {mark : String}
    (marks : isMarker doc e mark = true) (apart : e ∉ texts) : isMarker next e mark = true := by
  simp only [isMarker, isComment, Bool.and_eq_true, beq_iff_eq] at marks ⊢
  have bound : e < doc.nodes.size := present_of_kind (by simp [marks.1])
  exact ⟨(kept.kind_eq e bound).trans marks.1, (kept.data_eq e bound apart).trans marks.2⟩

theorem StandsBetween.ensureEnding (standing : StandsBetween doc region left right) :
    ∃ ending next, region.ensureEnding doc = ({ region with ending }, next) ∧
      StandsBetween next { region with ending } left right ∧ Retains doc next [] ∧ Spares doc next region.parent [] ∧
        Closing doc next region ending True := by
  unfold Region.ensureEnding
  split
  · rename_i settled
    refine ⟨region.ending, doc, rfl, standing, retains_of_rearranged (.refl doc) [], .refl .., .unchanged fun none some => ?_⟩
    simp only [none, isSome_none, Bool.or_false, isNone_iff_eq_none] at settled
    simp [settled] at some
  · rename_i unsettled
    simp only [Bool.or_eq_true, isNone_iff_eq_none, isSome_iff_ne_none, not_or, not_not] at unsettled
    obtain ⟨start, none⟩ := unsettled
    have created : Patched doc (doc.createComment regionEnd).2 [] := patched_create doc .comment regionEnd
    have moved : StandsBetween (doc.createComment regionEnd).2 region left right :=
      ⟨created.lists standing.lists, standing.fixed, standing.last⟩
    have kind : (doc.createComment regionEnd).2.kind doc.nodes.size = .comment := by
      simp [createComment, kind, node?_create]
    have data : (doc.createComment regionEnd).2.data doc.nodes.size = regionEnd := by
      simp [createComment, data, node?_create]
    have solid : (doc.createComment regionEnd).2.isFragment doc.nodes.size = false := by simp [isFragment, kind]
    have outside : doc.nodes.size ∉ left ++ region.start.toList ++ region.current ++ right := by
      intro mem
      have listed := standing.lists
      rw [none] at listed
      exact lt_irrefl _ (lt_size_of_lists listed _ (by simpa using mem))
    have behind : (doc.createComment regionEnd).2.Lists region.parent
        ((left ++ region.start.toList ++ region.current) ++ right) := by simpa [none] using moved.lists
    have placed := behind.insertBefore solid
    rw [filter_ne_of_not_mem fun mem => outside (List.mem_append_left _ mem),
      filter_ne_of_not_mem fun mem => outside (List.mem_append_right _ mem)] at placed
    have mark : region.mark (doc.createComment regionEnd).2 = right.head? := by simpa [none] using moved.mark
    have kept : Retains (doc.createComment regionEnd).2
        ((doc.createComment regionEnd).2.insertBefore region.parent doc.nodes.size right.head?) [] :=
      retains_of_rearranged (rearranged_insertBefore _ _ _ _) []
    refine ⟨some doc.nodes.size, (doc.createComment regionEnd).2.insertBefore region.parent doc.nodes.size right.head?,
      by rw [← mark]; rfl, ⟨by simpa using placed, by simp, by simp⟩, created.toRetains.trans kept (by simp), ⟨fun m bound _ => ?_, fun m bound apart _ => ?_⟩, ?_⟩
    · rw [parent?_insertBefore solid, if_neg bound.ne]
      exact created.parent?_eq m
    · have free : (doc.createComment regionEnd).2.parent? doc.nodes.size = Option.none := by
        simp [createComment, parent?, node?_create]
      rw [children_insertBefore_of_ne solid moved.lists.present apart, if_neg (by simp [free])]
      exact created.children_eq m
    refine ⟨by simp [none], fun _ => ?_, fun _ e found => ?_, fun _ e found => ?_⟩
    · simpa [isSome_iff_ne_none] using start
    · obtain rfl := some.inj found
      exact isMarker_retained kept (by simp [isMarker, isComment, kind, data]) (by simp)
    · exact Nat.le_of_eq (some.inj found)

structure Updated (doc : Document η π) (region : Region) (left right : List NodeId) (items : List Item)
    (shown : Region × Document η π) : Prop where
  standing : StandsBetween shown.2 shown.1 left right
  shows : List.Forall₂ (ShowsItem shown.2) items shown.1.current
  region_eq : shown.1 = { region with current := shown.1.current, ending := shown.1.ending }
  kept : Retains doc shown.2 region.current
  gone : ∀ n ∈ region.current, n ∉ shown.1.current → shown.2.parent? n = none
  closes : Closing doc shown.2 region shown.1.ending (items.length ≠ 1)
  spares : Spares doc shown.2 region.parent (region.current ++ itemNodes items)

theorem Readied.replacement (placeable : Placeable doc region left right items) (kept : Retains doc middle [])
    (standing : StandsBetween middle { region with ending } left right) (closes : Closing doc middle region ending asked)
    (prepared : Readied middle ready region.current items nodes) :
    Replacement ready region.parent (left ++ region.start.toList) region.current nodes (ending.toList ++ right) where
  lists := by simpa using prepared.patched.lists standing.lists
  once := prepared.once
  solid n mem := by
    rcases prepared.origin n mem with given | ⟨text, _⟩
    · have solid := placeable.solid n given
      have bound := present_of_kind solid
      have same := (prepared.patched.kind_eq n (bound.trans_le kept.size_le)).trans (kept.kind_eq n bound)
      simpa [isFragment, same] using solid
    · simp [isFragment, text]
  inner n mem := by
    rcases prepared.origin n mem with given | ⟨_, old | new⟩
    · obtain ⟨noLeft, noStart, noEnding, noRight⟩ := placeable.inner n given
      have bound := present_of_kind (placeable.solid n given)
      have apart : n ∉ ending.toList := by
        intro member
        have found : ending = some n := by simpa using member
        cases old : region.ending with
        | none => exact lt_irrefl n (bound.trans_le (closes.fresh old n found))
        | some e =>
          have same : some n = some e := found.symm.trans (closes.keeps e old)
          exact noEnding (by simp [old, some.inj same])
      exact ⟨by simp [noLeft, noStart], by simp [apart, noRight]⟩
    · exact standing.apart old
    · have small := lt_size_of_lists standing.around
      refine ⟨fun lead => ?_, fun tail => ?_⟩
      · exact lt_irrefl n ((small n (List.mem_append_left _ lead)).trans_le new)
      · have listed := List.mem_append_right region.current tail
        exact lt_irrefl n ((small n (List.mem_append_right _ listed)).trans_le new)

theorem Readied.updated (placeable : Placeable doc region left right items) (kept : Retains doc middle [])
    (spared : Spares doc middle region.parent []) (standing : StandsBetween middle { region with ending } left right)
    (closes : Closing doc middle region ending (items.length ≠ 1)) (prepared : Readied middle ready region.current items nodes)
    (swapped : Swapped ready next region.parent (left ++ region.start.toList) region.current nodes (ending.toList ++ right)) :
    Updated doc region left right items ({ region with ending, current := nodes }, next) where
  standing := standing.of_lists swapped.lists
  shows := prepared.shows.imp fun item n shows => shows.kept (retains_of_rearranged swapped.rearranged []) (by simp)
  region_eq := rfl
  kept := by
    have first : Retains doc middle region.current := ⟨kept.size_le, kept.node?_eq, fun m bound _ => kept.data_eq m bound (by simp)⟩
    exact (first.trans prepared.patched.toRetains fun _ mem => mem).trans (retains_of_rearranged swapped.rearranged []) (by simp)
  gone := swapped.gone
  closes := by
    refine ⟨closes.keeps, closes.made, fun none e found => ?_, closes.fresh⟩
    have apart : e ∉ region.current := by
      intro mem
      refine (standing.apart mem).2 (List.mem_append_left _ ?_)
      exact mem_toList.mpr found
    exact isMarker_retained (retains_of_rearranged swapped.rearranged []) (isMarker_retained prepared.patched.toRetains
      (closes.marker none e found) apart) (by simp)
  spares := by
    have bound' : ∀ m < doc.nodes.size, m < ready.nodes.size := fun m bound =>
      bound.trans_le (kept.size_le.trans prepared.patched.size_le)
    refine ⟨fun m bound absent => ?_, fun m bound apart away => ?_⟩
    · rw [swapped.spares.parent?_eq m (bound' m bound), prepared.patched.parent?_eq, spared.parent?_eq m bound (by simp)]
      refine fun mem => absent ((List.mem_append.mp mem).elim (List.mem_append_left _) fun chosen => ?_)
      rcases prepared.origin m chosen with given | ⟨_, old | new⟩
      · exact List.mem_append_right _ given
      · exact List.mem_append_left _ old
      · exact absurd (bound.trans_le kept.size_le) new.not_gt
    · rw [swapped.spares.children_eq m (bound' m bound) apart, prepared.patched.children_eq,
        spared.children_eq m bound apart (by simp)]
      have listed : ∀ n ∈ region.current, middle.parent? n ≠ some m := fun n mem stands =>
        apart (some.inj (stands.symm.trans (standing.around.parents n (by simp [mem]))))
      intro n mem stands
      rw [prepared.patched.parent?_eq] at stands
      rcases List.mem_append.mp mem with old | chosen
      · exact listed n old stands
      · rcases prepared.origin n chosen with given | ⟨_, old | new⟩
        · refine away n (List.mem_append_right _ given) ?_
          rwa [← spared.parent?_eq n (present_of_kind (placeable.solid n given)) (by simp)]
        · exact listed n old stands
        · simp [parent?, node?_ge middle new] at stands

theorem StandsBetween.swapped_replace (standing : StandsBetween ready region left right)
    (task : Replacement ready region.parent (left ++ region.start.toList) region.current nodes
      (region.ending.toList ++ right)) :
    ∃ next, region.replace nodes ready = ({ region with current := nodes }, next) ∧
      Swapped ready next region.parent (left ++ region.start.toList) region.current nodes
        (region.ending.toList ++ right) := by
  refine ⟨_, ?_, swapped_insert_remove task⟩
  rw [replace, standing.mark, filter_not_contains]
  rfl

theorem update_text_fresh {data : String} (other : ¬ ∃ n, region.current = [n] ∧ doc.isText n = true) :
    region.update [.text data] doc = region.replace [doc.nodes.size] (doc.createText data).2 := by
  simp only [update]
  split
  · rename_i n single
    rw [if_neg fun text => other ⟨n, single, text⟩]
    rfl
  · rfl

theorem StandsBetween.update_one {item : Item} (standing : StandsBetween doc region left right)
    (placeable : Placeable doc region left right [item]) : Updated doc region left right [item] (region.update [item] doc) := by
  have kept : Retains doc doc [] := retains_of_rearranged (.refl doc) []
  have closes : Closing doc doc region region.ending ([item].length ≠ 1) := .unchanged fun _ _ several => several rfl
  have staying : ∀ {ready : Document η π} {nodes : List NodeId},
      Readied doc ready region.current [item] nodes → region.current = nodes →
      Updated doc region left right [item] (region, ready) := by
    intro ready nodes prepared same
    subst same
    refine prepared.updated placeable kept (.refl ..) standing closes
      ⟨.refl ready, prepared.patched.lists standing.around, ?_, .refl ..⟩
    exact fun n mem absent => absurd mem absent
  have replacing : ∀ {ready : Document η π} {nodes : List NodeId},
      Readied doc ready region.current [item] nodes →
      Updated doc region left right [item] (region.replace nodes ready) := by
    intro ready nodes prepared
    have ready_standing : StandsBetween ready region left right :=
      ⟨prepared.patched.lists standing.lists, standing.fixed, standing.last⟩
    obtain ⟨_, eq, swapped⟩ := ready_standing.swapped_replace (prepared.replacement placeable kept standing closes)
    rw [eq]
    exact prepared.updated placeable kept (.refl ..) standing closes swapped
  cases item with
  | node n =>
    have prepared : Readied doc doc region.current [.node n] [n] :=
      ⟨.refl doc _, .cons rfl .nil, by simp, fun m member => .inl member⟩
    by_cases same : region.current = [n]
    · simp only [update, same, if_true]
      exact staying prepared same
    · simp only [update, same, if_false]
      exact replacing prepared
  | text data =>
    have created : Readied doc (doc.createText data).2 region.current [.text data] [doc.nodes.size] := by
      have shows : ShowsItem (doc.createText data).2 (.text data) doc.nodes.size := by
        simp [ShowsItem, createText, Document.kind, Document.data, node?_create]
      refine ⟨(patched_create doc .text data).widen (by simp), .cons shows .nil, by simp, fun m member => ?_⟩
      obtain rfl : m = doc.nodes.size := by simpa using member
      exact .inr ⟨shows.1, .inr (le_rfl)⟩
    by_cases patched : ∃ n, region.current = [n] ∧ doc.isText n = true
    · obtain ⟨n, single, text⟩ := patched
      have patch := patched_setData doc n data
      have kind : doc.kind n = .text := by simpa [isText] using text
      have bound : n < doc.nodes.size := present_of_kind (by simp [kind])
      have shows : ShowsItem (doc.setData n data) (.text data) n := by
        refine ⟨(patch.kind_eq n bound).trans kind, ?_⟩
        obtain ⟨node, found⟩ : ∃ node, doc.node? n = some node := by simp [node?, bound]
        simp [Document.data, setData, found]
      have prepared : Readied doc (doc.setData n data) region.current [.text data] [n] := by
        refine ⟨patch.widen (by simp [single]), .cons shows .nil, by simp, fun m member => ?_⟩
        obtain rfl : m = n := by simpa using member
        exact .inr ⟨shows.1, .inl (by simp [single])⟩
      simp only [update, single, text, if_true]
      exact staying prepared single
    · rw [update_text_fresh patched]
      exact replacing created

theorem update_several (several : 2 ≤ items.length) (region : Region) (doc : Document η π) : region.update items doc =
      let (region, doc) := region.ensureEnding doc
      let (nodes, doc) := nodesFor region.current items doc
      if region.current.length ≤ 1 then region.replace nodes doc
      else ({ region with current := nodes }, reconcile region.parent region.current nodes (region.mark doc) doc) := by
  match items, several with
  | .node n :: second :: rest, _ => rfl
  | .text data :: second :: rest, _ => rfl

theorem StandsBetween.update_readied (standing : StandsBetween doc region left right)
    (placeable : Placeable doc region left right items)
    (readied : ∀ middle, Retains doc middle [] → region.current.Nodup → (∀ n ∈ region.current, n < middle.nodes.size) →
      Readied middle (nodesFor region.current items middle).2 region.current items
        (nodesFor region.current items middle).1) :
    Updated doc region left right items (region.update items doc) := by
  match many : items with
  | [item] => exact standing.update_one placeable
  | [] =>
    obtain ⟨ending, middle, eq, ended, kept, spared, closes⟩ := standing.ensureEnding
    have emptied : Readied middle middle region.current [] [] := ⟨.refl middle _, .nil, by simp, by simp⟩
    have removed := refilled_removeAll ended.around (List.Subset.refl region.current)
    have none : region.current.filter (· ∉ region.current) = [] := by simp
    rw [none] at removed
    have asked : Closing doc middle region ending (([] : List Item).length ≠ 1) :=
      { closes with made := by simpa using closes.made }
    have swapped : Swapped middle (middle.removeAll region.current) region.parent (left ++ region.start.toList)
        region.current [] (ending.toList ++ right) := by
      refine ⟨removed.rearranged, removed.lists, fun n mem _ => ?_, fun m _ absent => ?_, fun m _ apart _ =>
        removed.children_eq m apart⟩
      · rw [removed.parent?_eq, if_neg (by simp), if_pos mem]
      · rw [removed.parent?_eq, if_neg (by simp), if_neg (by simpa using absent)]
    have updated := emptied.updated placeable kept spared ended asked swapped
    simpa only [update, eq] using updated
  | first :: second :: rest =>
    obtain ⟨ending, middle, eq, ended, kept, spared, closes⟩ := standing.ensureEnding
    have listed := ended.around
    have present : ∀ n ∈ region.current, n < middle.nodes.size := fun n mem =>
      lt_size_of_lists listed n (List.mem_append_right _ (List.mem_append_left _ mem))
    have distinct : region.current.Nodup := (List.nodup_append.mp (List.nodup_append.mp listed.once).2.1).1
    have prepared := readied middle kept distinct present
    have asked : Closing doc middle region ending ((first :: second :: rest).length ≠ 1) :=
      { closes with made := by simpa using closes.made }
    have task := prepared.replacement placeable kept ended closes
    have ready : StandsBetween (nodesFor region.current (first :: second :: rest) middle).2
        { region with ending } left right :=
      ⟨prepared.patched.lists ended.lists, ended.fixed, ended.last⟩
    rw [update_several (by simp), eq]
    dsimp only
    split
    · obtain ⟨_, replaced, swapped⟩ := ready.swapped_replace task
      rw [replaced]
      exact prepared.updated placeable kept spared ended asked swapped
    · rw [ready.mark]
      exact prepared.updated placeable kept spared ended asked (swapped_reconcile task)

theorem StandsBetween.update (standing : StandsBetween doc region left right) (showable : Showable doc region left right items) :
    Updated doc region left right items (region.update items doc) := by
  refine standing.update_readied showable.placeable fun middle kept distinct present => ?_
  have given : Given middle items := by
    intro n mem
    rw [kept.kind_eq n (present_of_kind (showable.given n mem).2)]
    exact showable.given n mem
  exact readied_nodesFor given showable.once distinct present

end Updating

section Runs

variable {doc : Document η π} {region : Region} {left right : List NodeId}

def Region.updates (batches : List (List Item)) (shown : Region × Document η π) : Region × Document η π :=
  batches.foldl (fun shown items => shown.1.update items shown.2) shown

/-- Items can be shown in a region one after the other, each at the time when it is their turn. -/
def ShowableAll (left right : List NodeId) : Region × Document η π → List (List Item) → Prop
  | _, [] => True
  | shown, items :: later =>
    Showable shown.2 shown.1 left right items ∧ ShowableAll left right (shown.1.update items shown.2) later

theorem showableAll_append {done later : List (List Item)} {shown : Region × Document η π} :
    ShowableAll left right shown (done ++ later) ↔
      ShowableAll left right shown done ∧ ShowableAll left right (updates done shown) later := by
  induction done generalizing shown with
  | nil => simp [ShowableAll, updates]
  | cons _ _ ih =>
    rw [List.cons_append, ShowableAll, ShowableAll, ih, and_assoc]
    rfl

structure Settled (doc : Document η π) (region : Region) (left right : List NodeId) (batches : List (List Item))
    (shown : Region × Document η π) : Prop where
  standing : StandsBetween shown.2 shown.1 left right
  region_eq : shown.1 = { region with current := shown.1.current, ending := shown.1.ending }
  shows : ∀ items ∈ batches.getLast?, List.Forall₂ (ShowsItem shown.2) items shown.1.current
  beside : ∀ n ∈ left ++ right, shown.2.kind n = doc.kind n ∧ shown.2.data n = doc.data n
  ended : shown.1.ending.isSome ↔
    region.ending.isSome ∨ region.start.isSome ∧ ∃ items ∈ batches, items.length ≠ 1
  keeps : ∀ e, region.ending = some e → shown.1.ending = some e
  stays : ∀ e mark, region.ending = some e → isMarker doc e mark = true → isMarker shown.2 e mark = true
  marker : region.ending = none → ∀ e, shown.1.ending = some e → isMarker shown.2 e regionEnd = true

theorem Updated.settled {items : List Item} {next : Region × Document η π}
    (standing : StandsBetween doc region left right) (first : Updated doc region left right items next)
    (later : Settled next.2 next.1 left right batches (updates batches next)) :
    Settled doc region left right (items :: batches) (updates batches next) where
  standing := later.standing
  region_eq := by
    have one := first.region_eq
    have two := later.region_eq
    rw [one] at two
    exact two
  shows := by
    intro chosen found
    cases batches with
    | cons => exact later.shows chosen (by simpa using found)
    | nil =>
      obtain rfl : items = chosen := by simpa using found
      exact first.shows
  beside n mem := by
    have listed : n ∈ left ++ region.start.toList ++ region.current ++ region.ending.toList ++ right := by
      simp only [List.mem_append] at mem ⊢
      tauto
    have bound := lt_size_of_lists standing.lists n listed
    have apart : n ∉ region.current := by
      intro member
      obtain ⟨noLead, noTail⟩ := standing.apart member
      rcases List.mem_append.mp mem with before | behind
      · exact noLead (List.mem_append_left _ before)
      · exact noTail (List.mem_append_right _ behind)
    obtain ⟨kind, data⟩ := later.beside n mem
    exact ⟨kind.trans (first.kept.kind_eq n bound), data.trans (first.kept.data_eq n bound apart)⟩
  ended := by
    have start : next.1.start = region.start := by rw [first.region_eq]
    rw [later.ended, start]
    cases old : region.ending with
    | some e => simp [first.closes.keeps e old]
    | none =>
      rw [first.closes.made old]
      simp only [isSome_none, Bool.false_eq_true, false_or, List.mem_cons, exists_eq_or_imp]
      tauto
  keeps e found := later.keeps e (first.closes.keeps e found)
  stays e mark found marks := by
    refine later.stays e mark (first.closes.keeps e found) (isMarker_retained first.kept marks ?_)
    exact fun mem => (standing.apart mem).2 (List.mem_append_left _ (mem_toList.mpr found))
  marker none e found := by
    cases made : next.1.ending with
    | none => exact later.marker made e found
    | some e' =>
      obtain rfl : e' = e := some.inj ((later.keeps e' made).symm.trans found)
      exact later.stays e' regionEnd made (first.closes.marker none e' made)

theorem StandsBetween.updates (standing : StandsBetween doc region left right)
    (showable : ShowableAll left right (region, doc) batches) :
    Settled doc region left right batches (updates batches (region, doc)) := by
  induction batches generalizing doc region with
  | nil => exact ⟨standing, rfl, by simp, fun _ _ => ⟨rfl, rfl⟩, by simp [updates], fun _ found => found, fun _ _ _ marks => marks,
      fun none e found => by simp [updates, none] at found⟩
  | cons _ _ ih =>
    obtain ⟨now, later⟩ := showable
    have first := standing.update now
    exact first.settled standing (ih first.standing later)

end Runs

section Programs

variable {γ τ : Type} {world : World γ τ} {state : State (Procedure γ) (World γ τ) Datum} {id : RegionId}
  {mounted : Mounted} {left right : List NodeId}

def World.showing (world : World γ τ) (id : RegionId) (shown : Region × Document γ Property) : World γ τ :=
  { world with document := shown.2, regions := world.regions.modify id ({ · with region := shown.1 }) }

theorem World.showing_showing (world : World γ τ) (id : RegionId) (first second : Region × Document γ Property) :
    (world.showing id first).showing id second = world.showing id second := by
  have regions : (world.regions.modify id ({ · with region := first.1 })).modify id ({ · with region := second.1 }) =
      world.regions.modify id ({ · with region := second.1 }) := by
    apply Array.ext_getElem?
    intro i
    by_cases same : id = i <;> simp [Array.getElem?_modify, same, Function.comp_def]
  simp only [showing, regions]

theorem World.showing_self (found : world.regions[id]? = some mounted) :
    world.showing id (mounted.region, world.document) = world := by
  have regions : world.regions.modify id ({ · with region := mounted.region }) = world.regions :=
    modify_eq_self found rfl
  simp only [showing, regions]

theorem World.regions_showing (found : world.regions[id]? = some mounted) (shown : Region × Document γ Property) :
    (world.showing id shown).regions[id]? = some { mounted with region := shown.1 } := by
  simp [showing, Array.getElem?_modify, found]

/-- Whether the owner of a region, if it has one, is still there. -/
def Region.lives (region : Region) (graph : Graph (Procedure γ) Datum) : Bool := region.owner.all graph.ownerAlive

section

variable (self : Runner (Procedure γ) (World γ τ) Datum) (found : state.outside.regions[id]? = some mounted)
include self found

theorem run_regionLives : (regionLives id).run self state = .ok (mounted.region.lives state.graph) state := by
  have asked : (regionLives id).run self state = (stillOwned mounted.region.owner).run self state := by
    show (stillOwned ((state.outside.regions[id]?).bind (·.region.owner))).run self state = _
    rw [found]
    rfl
  rw [asked, lives]
  cases mounted.region.owner with
  | none => rfl
  | some => rfl

theorem run_showItems (items : List Item) :
    (showItems id items).run self state = .ok () (if mounted.region.lives state.graph = true then
      { state with outside := state.outside.showing id (mounted.region.update items state.outside.document) }
      else state) := by
  rw [showItems, Program.run_then (run_regionLives self found)]
  cases lives : mounted.region.lives state.graph with
  | false => rfl
  | true =>
    show EStateM.Result.ok () { state with outside := _ } = _
    dsimp only
    rw [found]
    rfl

theorem run_showItems_all (lives : mounted.region.lives state.graph = true)
    (standing : StandsBetween state.outside.document mounted.region left right)
    (showable : ShowableAll left right (mounted.region, state.outside.document) batches) :
    (batches.forM (showItems id)).run self state = .ok ()
      { state with
        outside := state.outside.showing id (Region.updates batches (mounted.region, state.outside.document)) } := by
  induction batches generalizing state mounted with
  | nil =>
    show EStateM.Result.ok () state = _
    rw [Region.updates, List.foldl_nil, showing_self found]
  | cons items batches ih =>
    obtain ⟨now, later⟩ := showable
    have first := standing.update now
    have same : (mounted.region.update items state.outside.document).1.owner = mounted.region.owner := by
      rw [first.region_eq]
    have shown := run_showItems self found items
    rw [if_pos lives] at shown
    have lives' : (mounted.region.update items state.outside.document).1.lives state.graph = true := by
      simpa [Region.lives, same] using lives
    have rest := @ih { state with
      outside := state.outside.showing id (mounted.region.update items state.outside.document) } _
      (regions_showing found _) lives' first.standing later
    refine (Program.run_then shown fun _ => batches.forM (showItems id)).trans ?_
    rw [rest, showing_showing]
    rfl

end

/-- However often a region that may be changed is given other items, between what stands before and behind it there
stand, after each update, its markers and the nodes of its items in order. The end of a region behind a marker is made
when it first holds nothing or several items, and stays. A region whose owner is gone does not change. -/
theorem region_shows_items_in_place (self : Runner (Procedure γ) (World γ τ) Datum)
    (found : state.outside.regions[id]? = some mounted)
    (standing : StandsBetween state.outside.document mounted.region left right) (batches : List (List Item))
    (showable : ShowableAll left right (mounted.region, state.outside.document) batches) :
    (mounted.region.lives state.graph = true → ∀ done later, batches = done ++ later →
      let shown := Region.updates done (mounted.region, state.outside.document)
      (done.forM (showItems id)).run self state = .ok () { state with outside := state.outside.showing id shown } ∧
        shown.2.children mounted.region.parent =
          left ++ mounted.region.start.toList ++ shown.1.current ++ shown.1.ending.toList ++ right ∧
        (∀ items ∈ done.getLast?, List.Forall₂ (ShowsItem shown.2) items shown.1.current) ∧
        (∀ n ∈ left ++ right, shown.2.kind n = state.outside.document.kind n ∧
          shown.2.data n = state.outside.document.data n) ∧
        (shown.1.ending.isSome ↔ mounted.region.ending.isSome ∨
          mounted.region.start.isSome ∧ ∃ items ∈ done, items.length ≠ 1) ∧
        ∀ ending, shown.1.ending = some ending →
          (mounted.region.ending = none → isMarker shown.2 ending regionEnd = true) ∧
            (Region.updates batches (mounted.region, state.outside.document)).1.ending = some ending) ∧
      (mounted.region.lives state.graph = false → ∀ items, (showItems id items).run self state = .ok () state) := by
  refine ⟨fun lives done later split => ?_, fun dead items => ?_⟩
  · subst split
    obtain ⟨first, second⟩ := showableAll_append.mp showable
    have settled := standing.updates first
    have after := settled.standing.updates second
    have whole : updates (done ++ later) (mounted.region, state.outside.document) =
        updates later (updates done (mounted.region, state.outside.document)) := List.foldl_append ..
    have parent : (updates done (mounted.region, state.outside.document)).1.parent = mounted.region.parent := by
      rw [settled.region_eq]
    have start : (updates done (mounted.region, state.outside.document)).1.start = mounted.region.start := by
      rw [settled.region_eq]
    have children := settled.standing.lists.children_eq
    rw [parent, start] at children
    refine ⟨run_showItems_all self found lives standing first, children, settled.shows, settled.beside, settled.ended,
      fun ending made => ⟨fun none => settled.marker none ending made, ?_⟩⟩
    rw [whole]
    exact after.keeps ending made
  · rw [run_showItems self found items, if_neg (by simp [dead])]

/-- A paragraph with an element, a marker with a text behind it and another element, and an element that stands
nowhere. -/
def paragraph : Document Unit Property where
  nodes := #[
    { kind := .element "p" false, children := [1, 2, 3, 4] },
    { kind := .element "b" false, parent := some 0 }, { kind := .comment, data := "$", parent := some 0 },
    { kind := .text, data := "a", parent := some 0 }, { kind := .element "i" false, parent := some 0 },
    { kind := .element "u" false }]

def markedRegion : Region := { parent := 0, start := some 2, current := [3] }

def paragraphState : State (Procedure Unit) (World Unit Unit) Datum where
  outside := { document := paragraph, regions := #[⟨markedRegion, none⟩], host := () }

theorem standing_markedRegion : StandsBetween paragraph markedRegion [1] [4] :=
  ⟨⟨by decide, by decide, by decide, by decide⟩, by simp [markedRegion], by simp [markedRegion]⟩

theorem showable_markedRegion :
    ShowableAll [1] [4] (markedRegion, paragraph) [[.text "b"], [.node 5, .text "c"], []] := by
  have nothing : ∀ (doc : Document Unit Property) (items : List Item), itemNodes items = [] → Given doc items :=
    fun doc items none n mem => by simp [none] at mem
  refine ⟨⟨by decide, nothing _ _ rfl, by decide⟩, ⟨by decide, ?_, by decide⟩, ⟨by decide, nothing _ _ rfl, by decide⟩,
    trivial⟩
  unfold Given
  decide

/-- The text is patched, then the element comes to stand before a new text and the region is closed behind them, and at
last nothing is left but its markers. -/
theorem region_shows_items_in_place_paragraph : ∃ shown : Region × Document Unit Property,
      ([[Item.text "b"], [.node 5, .text "c"], []].forM (showItems 0)).run (fun _ => throw .exhausted) paragraphState =
        .ok () { paragraphState with outside := paragraphState.outside.showing 0 shown } ∧
      ∃ ending, isMarker shown.2 ending regionEnd = true ∧ shown.2.children 0 = [1, 2, ending, 4] := by
  have found : paragraphState.outside.regions[0]? = some ⟨markedRegion, none⟩ := rfl
  obtain ⟨live, _⟩ := region_shows_items_in_place (fun _ => throw .exhausted) found standing_markedRegion
    [[.text "b"], [.node 5, .text "c"], []] showable_markedRegion
  obtain ⟨run, children, shows, _, ended, marker⟩ := live rfl _ [] (List.append_nil _).symm
  obtain ⟨ending, found⟩ := Option.isSome_iff_exists.mp (ended.mpr (.inr ⟨rfl, [], by simp, by simp⟩))
  have empty := List.forall₂_nil_left_iff.mp (shows [] rfl)
  rw [found, empty] at children
  exact ⟨_, run, ending, (marker ending found).1 rfl, children⟩

end Programs

end LiveMarkup.Live
