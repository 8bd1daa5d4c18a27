import LiveMarkup.Live.Template
import LiveMarkup.Proofs.DocumentOrder

/-!
Paths over regions that were filled elsewhere. A region ends among the siblings of its marker, whatever stands below
them, so a path that leads through a template leads through a copy whose regions are filled to the same nodes.
-/

namespace LiveMarkup.Live
open Document Reactive
open List hiding next?

variable {η π : Type} {doc : Document η π} {m : NodeId} {nodes right left : List NodeId}

section Ends

def marks (doc : Document η π) (n : NodeId) : Bool := isMarker doc n regionStart || isMarker doc n regionEnd

theorem closing?_filter (depth : Nat) (nodes : List NodeId) :
    closing? doc depth (nodes.filter (marks doc)) = closing? doc depth nodes := by
  induction nodes generalizing depth with
  | nil => rfl
  | cons n _ ih =>
    by_cases opens : isMarker doc n regionStart = true
    · have kept : marks doc n = true := by simp [marks, opens]
      rw [filter_cons_of_pos kept, closing?, closing?, if_pos opens, if_pos opens, ih]
    · by_cases ends : isMarker doc n regionEnd = true
      · have kept : marks doc n = true := by simp [marks, ends]
        rw [filter_cons_of_pos kept, closing?, closing?, if_neg opens, if_neg opens, if_pos ends, if_pos ends, ih]
      · have passed : ¬ marks doc n = true := by simp [marks, opens, ends]
        rw [filter_cons_of_neg passed, closing?, if_neg opens, if_neg ends, ih]

variable {parent : NodeId}

theorem parent?_ne_of_below {c : NodeId} (tree : doc.IsTree parent) (mem : c ∈ doc.children parent)
    (below : doc.Below c m) (apart : m ≠ c) : doc.parent? m ≠ some parent := by
  intro same
  obtain ⟨_, known, lower⟩ := below.parent? (tree.child mem) apart
  rw [same] at known
  obtain rfl := Option.some.inj known
  exact tree.acyclic mem lower

theorem filter_spansAll {siblings : List NodeId} (tree : doc.IsTree parent)
    (mem : siblings ⊆ doc.children parent) (spans : doc.SpansAll siblings nodes) :
    nodes.filter (fun n => marks doc n && doc.parent? n == some parent) = siblings.filter (marks doc) := by
  induction siblings generalizing nodes with
  | nil =>
    cases spans
    rfl
  | cons c _ ih =>
    have here := mem (mem_cons_self ..)
    cases spans with
    | cons first later =>
      have once := first.once (tree.child here)
      have within := first.within
      cases first with
      | @node _ nodes =>
        have fresh := (nodup_cons.mp once).1
        have none : nodes.filter (fun n => marks doc n && doc.parent? n == some parent) = [] := by
          refine filter_eq_nil_iff.mpr fun m member => ?_
          have apart : m ≠ c := fun same => fresh (same ▸ member)
          have other := parent?_ne_of_below tree here (within m (mem_cons_of_mem c member)) apart
          simp [other]
        have known : doc.parent? c = some parent := tree.lists.parents c here
        have rest := ih (fun m member => mem (mem_cons_of_mem c member)) later
        rw [filter_append, filter_cons, filter_cons, none, rest]
        by_cases mark : marks doc c = true
        · simp [mark, known]
        · simp [mark]

theorem regionEnd?_eq {marker : NodeId} (tree : doc.IsTree parent)
    (children : doc.children parent = left ++ marker :: right) :
    regionEnd? doc marker = closing? doc 0 right := by
  have here : marker ∈ doc.children parent := by simp [children]
  have above : doc.parent? marker = some parent := tree.lists.parents marker here
  obtain ⟨inner, _, under, later, visited⟩ := allFollowing_eq tree children
  have below : inner.filter (fun n => marks doc n && doc.parent? n == some parent) = [] := by
    refine filter_eq_nil_iff.mpr fun m member => ?_
    obtain ⟨_, mem, lower⟩ := under.within m member
    have apart : m ≠ marker := fun same => (tree.child here).acyclic mem (same ▸ lower)
    have other := parent?_ne_of_below tree here ((Below.self.child mem).trans lower) apart
    simp [other]
  have beside := filter_spansAll tree (fun m member => by simp [children, member]) later
  rw [regionEnd?, above]
  show closing? doc 0 ((doc.allFollowing parent marker).filter fun n => marks doc n && doc.parent? n == some parent) = _
  rw [visited, filter_append, below, beside, nil_append, closing?_filter]

end Ends

/-- Every region that is opened among siblings is closed among them, and no other is. -/
inductive Balanced (doc : Document η π) : List NodeId → Prop
  | nil : Balanced doc []
  | plain {n : NodeId} {rest : List NodeId} (unmarked : marks doc n = false) (later : Balanced doc rest) :
    Balanced doc (n :: rest)
  | region {marker ending : NodeId} {content rest : List NodeId} (opens : isMarker doc marker regionStart = true)
    (inner : Balanced doc content) (ends : isMarker doc ending regionEnd = true) (later : Balanced doc rest) :
    Balanced doc (marker :: (content ++ ending :: rest))

theorem not_opening_of_closing {n : NodeId} (ends : isMarker doc n regionEnd = true) :
    isMarker doc n regionStart = false := by
  simp only [isMarker, Bool.and_eq_true, beq_iff_eq] at ends
  simp [isMarker, ends.2, regionStart, regionEnd]

theorem Balanced.closing? {content : List NodeId} (balanced : Balanced doc content) (depth : Nat) (tail : List NodeId) :
    Live.closing? doc depth (content ++ tail) = Live.closing? doc depth tail := by
  induction balanced generalizing depth tail with
  | nil => rfl
  | plain unmarked _ ih =>
    simp only [marks, Bool.or_eq_false_iff] at unmarked
    rw [cons_append, Live.closing?, if_neg (by simp [unmarked.1]), if_neg (by simp [unmarked.2]), ih]
  | region opens _ ends _ innerIh laterIh =>
    rw [cons_append, Live.closing?, if_pos opens, append_assoc, innerIh, cons_append, Live.closing?,
      if_neg (by simp [not_opening_of_closing ends]), if_pos ends, if_neg (Nat.succ_ne_zero depth), Nat.add_sub_cancel,
      laterIh]

theorem closing?_eq_none (open_ : ∀ n ∈ nodes, isMarker doc n regionEnd = false) (depth : Nat) :
    Live.closing? doc depth nodes = none := by
  induction nodes generalizing depth with
  | nil => rfl
  | cons n _ ih =>
    have here := open_ n (by simp)
    have rest := ih fun m mem => open_ m (mem_cons_of_mem n mem)
    rw [Live.closing?]
    split
    · exact rest _
    · rw [if_neg (by simp [here])]
      exact rest _

theorem nextOnPath?_unclosed {parent n : NodeId} (tree : doc.IsTree parent)
    (children : doc.children parent = left ++ n :: right) (open_ : ∀ c ∈ right, isMarker doc c regionEnd = false) :
    nextOnPath? doc n = right.head? := by
  have listed := tree.lists
  rw [children] at listed
  rw [nextOnPath?, regionEnd?_eq tree children, closing?_eq_none open_, ite_self]
  exact listed.next?

section Filling

variable {template server : Document η π} {root : NodeId} {image : NodeId → NodeId} {filled : List NodeId} {n : NodeId}

/-- What becomes of siblings of a template: each has its image, and behind the image of a marker stand any balanced
siblings and a comment that closes the region. -/
inductive Spliced (template server : Document η π) (image : NodeId → NodeId) : List NodeId → List NodeId → Prop
  | nil : Spliced template server image [] []
  | plain {n : NodeId} {rest filled : List NodeId} (unmarked : isMarker template n regionStart = false)
    (later : Spliced template server image rest filled) : Spliced template server image (n :: rest) (image n :: filled)
  | region {n ending : NodeId} {rest content filled : List NodeId} (opens : isMarker template n regionStart = true)
    (balanced : Balanced server content) (ends : isMarker server ending regionEnd = true)
    (later : Spliced template server image rest filled) :
    Spliced template server image (n :: rest) (image n :: (content ++ ending :: filled))

/-- The tree of a template and a tree in which its regions are filled. A node of the template and its image are of one
kind and have the same characters; where the template has children they are spliced, and where it has none there may be
anything. -/
structure Filling (template server : Document η π) (root : NodeId) (image : NodeId → NodeId) : Prop where
  template_tree : template.IsTree root
  root_alone : template.parent? root = none
  unclosed : ∀ n, template.Below root n → isMarker template n regionEnd = false
  server_tree : server.IsTree (image root)
  kind_eq : ∀ n, template.Below root n → server.kind (image n) = template.kind n
  data_eq : ∀ n, template.Below root n → server.data (image n) = template.data n
  spliced : ∀ n, template.Below root n → template.children n ≠ [] →
    Spliced template server image (template.children n) (server.children (image n))

theorem Spliced.head (spliced : Spliced template server image nodes filled) : filled.head? = nodes.head?.map image := by
  cases spliced <;> rfl

theorem Spliced.mem (spliced : Spliced template server image nodes filled) (mem : n ∈ nodes) : image n ∈ filled := by
  induction spliced with
  | nil => simp at mem
  | plain _ _ ih =>
    rcases mem_cons.mp mem with rfl | later
    · simp
    · exact mem_cons_of_mem _ (ih later)
  | region _ _ _ _ ih =>
    rcases mem_cons.mp mem with rfl | later
    · simp
    · simp [ih later]

theorem Spliced.split (spliced : Spliced template server image (left ++ n :: right) filled) :
    ∃ before behind, filled = before ++ behind ∧ Spliced template server image (n :: right) behind := by
  induction left generalizing filled with
  | nil => exact ⟨[], filled, rfl, spliced⟩
  | cons first _ ih =>
    cases spliced with
    | plain _ later =>
      obtain ⟨before, behind, rfl, rest⟩ := ih later
      exact ⟨image first :: before, behind, rfl, rest⟩
    | @region _ ending _ content _ _ _ _ later =>
      obtain ⟨before, behind, rfl, rest⟩ := ih later
      exact ⟨image first :: (content ++ ending :: before), behind, by simp, rest⟩

variable (filling : Filling template server root image)
include filling

theorem Filling.image_tree (below : template.Below root n) : server.IsTree (image n) := by
  induction below with
  | self => exact filling.server_tree
  | child above mem ih =>
    exact ih.child ((filling.spliced _ above (ne_nil_of_mem mem)).mem mem)

theorem Filling.isMarker_image (below : template.Below root n) (mark : String) :
    isMarker server (image n) mark = isMarker template n mark := by
  simp [isMarker, isComment, filling.kind_eq n below, filling.data_eq n below]

theorem Filling.nextOnPath? {n : NodeId} (below : template.Below root n) (next : nextOnPath? template n = some m) :
    nextOnPath? server (image n) = some (image m) ∧ template.Below root m := by
  have marker := filling.isMarker_image below regionStart
  cases below with
  | self =>
    have none : template.next? root = none := by simp [next?, siblings?, filling.root_alone]
    simp [Live.nextOnPath?, regionEnd?, filling.root_alone, none] at next
  | @child parent _ above mem =>
    have tree := above.isTree filling.template_tree
    have serverTree := filling.image_tree above
    obtain ⟨_, right, children⟩ := append_of_mem mem
    -- in the template nothing is closed, so the step leads to the sibling behind the node
    have unclosed : ∀ c ∈ right, isMarker template c regionEnd = false := fun c later =>
      filling.unclosed c (above.child (by simp [children, later]))
    have step := nextOnPath?_unclosed tree children unclosed
    have found : right.head? = some m := step.symm.trans next
    have spliced := filling.spliced parent above (ne_nil_of_mem mem)
    rw [children] at spliced
    obtain ⟨before, _, filled, rest⟩ := spliced.split
    have serverListed := serverTree.lists
    refine ⟨?_, above.child (by simp [children, mem_of_mem_head? found])⟩
    cases rest with
    | plain unmarked later =>
      rw [filled] at serverListed
      rw [Live.nextOnPath?, marker, unmarked, if_neg (by simp)]
      show server.next? (image n) = _
      rw [serverListed.next?, later.head, found]
      rfl
    | @region _ ending _ content rest opens balanced ends later =>
      have past : regionEnd? server (image n) = some ending := by
        rw [regionEnd?_eq serverTree filled, balanced.closing?, closing?, if_neg (by simp [not_opening_of_closing ends]),
          if_pos ends, if_pos rfl]
      have around : server.Lists (image parent) ((before ++ image n :: content) ++ ending :: rest) := by
        rw [filled] at serverListed
        simpa using serverListed
      rw [Live.nextOnPath?, marker, opens, if_pos rfl, past]
      show server.next? ending = _
      rw [around.next?, later.head, found]
      rfl

theorem Filling.firstChild? {n : NodeId} (below : template.Below root n) (first : template.firstChild? n = some m) :
    server.firstChild? (image n) = some (image m) ∧ template.Below root m := by
  have mem : m ∈ template.children n := mem_of_mem_head? first
  have spliced := filling.spliced n below (ne_nil_of_mem mem)
  refine ⟨?_, below.child mem⟩
  rw [Document.firstChild?, spliced.head]
  show (template.firstChild? n).map image = _
  rw [first]
  rfl

theorem Filling.follow? {path : List Char} {x y : NodeId} (below : template.Below root x)
    (leads : follow? template x path = some y) : follow? server (image x) path = some (image y) := by
  fun_induction Live.follow? template x path with
  | case1 =>
    obtain rfl := Option.some.inj leads
    rfl
  | case2 _ _ ih =>
    obtain ⟨m, first, onward⟩ := Option.bind_eq_some_iff.mp leads
    obtain ⟨step, lower⟩ := filling.firstChild? below first
    simpa [Live.follow?, step] using ih m lower onward
  | case3 _ _ ih =>
    obtain ⟨m, next, onward⟩ := Option.bind_eq_some_iff.mp leads
    obtain ⟨step, lower⟩ := filling.nextOnPath? below next
    simpa [Live.follow?, step] using ih m lower onward
  | case4 => simp at leads

omit filling

/-- Whatever the regions of a template are filled with, a path that leads from one of its nodes to another leads from the
image of the one to the image of the other, and walking it changes nothing. -/
theorem walk_over_regions {γ τ : Type} {template server : Document γ Property} {root : NodeId} {image : NodeId → NodeId}
    (filling : Filling template server root image) {x y : NodeId} (below : template.Below root x) {path : String}
    (leads : follow? template x path.toList = some y) (self : Runner (Procedure γ) (World γ τ) Datum)
    (state : State (Procedure γ) (World γ τ) Datum) (shown : state.outside.document = server) :
    (walk (image x) path).run self state = .ok (image y) state := by
  subst shown
  have arrives := filling.follow? below leads
  show EStateM.Result.ok _ _ = _
  simp only [arrives]

def counter : Document Unit Property where
  nodes := #[
    { kind := .element "p" false, children := [1, 2, 3] },
    { kind := .text, data := "Count: ", parent := some 0 }, { kind := .comment, data := "$", parent := some 0 },
    { kind := .element "b" false, parent := some 0 }]

/-- The paragraph with a number and another region in its region, and with a text in its last element. -/
def filledCounter : Document Unit Property where
  nodes := #[
    { kind := .element "p" false, children := [1, 2, 3, 4, 5, 6, 7] },
    { kind := .text, data := "Count: ", parent := some 0 }, { kind := .comment, data := "$", parent := some 0 },
    { kind := .text, data := "5", parent := some 0 }, { kind := .comment, data := "$", parent := some 0 },
    { kind := .comment, data := "/$", parent := some 0 }, { kind := .comment, data := "/$", parent := some 0 },
    { kind := .element "b" false, parent := some 0, children := [8] },
    { kind := .text, data := "!", parent := some 7 }]

def counterImage (n : NodeId) : NodeId := if n = 3 then 7 else n

theorem below_counter (below : counter.Below 0 n) : n ∈ [0, 1, 2, 3] := by
  have closed : ∀ m ∈ [0, 1, 2, 3], ∀ c ∈ counter.children m, c ∈ [0, 1, 2, 3] := by decide
  induction below with
  | self => decide
  | @child m c _ mem ih => exact closed m ih c mem

theorem isTree_counter : counter.IsTree 0 := isTree_of_numbered (by decide) (by decide)

theorem isTree_filledCounter : filledCounter.IsTree 0 := isTree_of_numbered (by decide) (by decide)

theorem filling_counter : Filling counter filledCounter 0 counterImage where
  template_tree := isTree_counter
  root_alone := by decide
  unclosed n below := by
    have all : ∀ m ∈ [0, 1, 2, 3], isMarker counter m regionEnd = false := by decide
    exact all n (below_counter below)
  server_tree := isTree_filledCounter
  kind_eq n below := by
    have all : ∀ m ∈ [0, 1, 2, 3], filledCounter.kind (counterImage m) = counter.kind m := by decide
    exact all n (below_counter below)
  data_eq n below := by
    have all : ∀ m ∈ [0, 1, 2, 3], filledCounter.data (counterImage m) = counter.data m := by decide
    exact all n (below_counter below)
  spliced n below some := by
    have root : ∀ m ∈ [0, 1, 2, 3], counter.children m ≠ [] → m = 0 := by decide
    obtain rfl := root n (below_counter below) some
    have content : Balanced filledCounter [3, 4, 5] :=
      .plain (by decide) (@Balanced.region _ _ _ 4 5 [] [] (by decide) .nil (by decide) .nil)
    exact .plain (by decide) (.region (by decide) content (by decide) (.plain (by decide) .nil))

/-- The path to the last element of the paragraph leads over the number and the region inside its region. -/
theorem walk_over_regions_counter : (walk 0 "fnn").run (fun _ => throw .exhausted)
        ({ outside := { document := filledCounter, host := () } } : State (Procedure Unit) (World Unit Unit) Datum) =
      .ok 7 { outside := { document := filledCounter, host := () } } := by
  have leads : follow? counter 0 "fnn".toList = some 3 := by decide
  exact walk_over_regions filling_counter .self leads _ _ rfl

end Filling

end LiveMarkup.Live
