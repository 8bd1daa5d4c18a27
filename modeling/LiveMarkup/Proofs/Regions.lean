import LiveMarkup.Live.Region
import LiveMarkup.Proofs.Reconciliation
import LiveMarkup.Proofs.Records

/-!
What a region makes of its parent's children: those between `lead` and `tail` are replaced and the others stay. A region
of text holds one text node at most, and patches it where it can.
-/

namespace LiveMarkup.Live
open Document List
open Region hiding replace

variable {η π : Type}

section Refilling

/-- Nodes that may come to stand between the `lead` and the `tail` of a parent: they are no fragments, and they stand
nowhere or under the parent already. -/
structure Fitting (doc : Document η π) (parent : NodeId) (lead new tail : List NodeId) : Prop where
  once : new.Nodup
  solid : ∀ n ∈ new, doc.isFragment n = false
  inner : ∀ n ∈ new, n ∉ lead ∧ n ∉ tail
  free : ∀ n ∈ new, doc.parent? n = none ∨ doc.parent? n = some parent

/-- Between its `lead` and its `tail` a parent has the children `new` in place of `old`, and nothing else has changed. -/
structure Refilled (doc next : Document η π) (parent : NodeId) (lead old new tail : List NodeId) : Prop where
  rearranged : Rearranged doc next
  lists : next.Lists parent (lead ++ (new ++ tail))
  parent?_eq : ∀ m, next.parent? m = if m ∈ new then some parent else if m ∈ old then none else doc.parent? m
  children_eq : ∀ m, m ≠ parent → next.children m = doc.children m

def insertAll (doc : Document η π) (parent : NodeId) (nodes : List NodeId) (mark : Option NodeId) : Document η π :=
  nodes.foldl (fun doc n => doc.insertBefore parent n mark) doc

variable {doc : Document η π} {parent : NodeId} {lead old new tail : List NodeId}

theorem filter_not_mem_eq_self {nodes others : List NodeId} (apart : ∀ n ∈ nodes, n ∉ others) :
    nodes.filter (· ∉ others) = nodes :=
  filter_eq_self.mpr fun n mem => by simpa using apart n mem

theorem filter_not_mem_concat {n : NodeId} (fresh : n ∉ new) :
    (old.filter (· != n) ++ [n]).filter (· ∉ new) ++ new = old.filter (· ∉ n :: new) ++ n :: new := by
  have kept : [n].filter (· ∉ new) = [n] := filter_not_mem_eq_self (by simpa using fresh)
  rw [filter_append, kept, filter_filter, append_assoc, singleton_append]
  congr 2
  funext m
  by_cases same : m = n <;> simp [same]

theorem refilled_insertAll {rest : List NodeId} (lists : doc.Lists parent (lead ++ (rest ++ tail)))
    (fitting : Fitting doc parent lead new tail) :
    Refilled doc (insertAll doc parent new tail.head?) parent lead [] (rest.filter (· ∉ new) ++ new) tail := by
  induction new generalizing doc rest with
  | nil =>
    refine ⟨.refl doc, by simpa [insertAll] using lists, fun m => ?_, fun _ _ => rfl⟩
    by_cases mem : m ∈ rest
    · simpa [mem, insertAll] using lists.parents m (by simp [mem])
    · simp [mem, insertAll]
  | cons n new ih =>
    have solid := fitting.solid n (by simp)
    obtain ⟨fresh, once⟩ := nodup_cons.mp fitting.once
    obtain ⟨noLead, noTail⟩ := fitting.inner n (by simp)
    have placed : (doc.insertBefore parent n tail.head?).Lists parent
        (lead ++ ((rest.filter (· != n) ++ [n]) ++ tail)) := by
      have around : doc.Lists parent ((lead ++ rest) ++ tail) := by simpa using lists
      have moved := around.insertBefore solid
      rw [filter_append, filter_ne_of_not_mem noLead, filter_ne_of_not_mem noTail] at moved
      simpa using moved
    have standing : ∀ m ∈ new, (doc.insertBefore parent n tail.head?).parent? m = doc.parent? m := by
      intro m mem
      have apart : m ≠ n := fun same => fresh (same ▸ mem)
      rw [parent?_insertBefore solid, if_neg apart]
    have later := ih placed
      { once
        solid := fun m mem => by
          rw [isFragment_insertBefore solid]
          exact fitting.solid m (mem_cons_of_mem n mem)
        inner := fun m mem => fitting.inner m (mem_cons_of_mem n mem)
        free := fun m mem => by
          rw [standing m mem]
          exact fitting.free m (mem_cons_of_mem n mem) }
    rw [filter_not_mem_concat fresh] at later
    refine ⟨(rearranged_insertBefore doc parent n _).trans later.rearranged, later.lists, fun m => ?_, fun m apart => ?_⟩
    · rw [show insertAll doc parent (n :: new) tail.head? =
        insertAll (doc.insertBefore parent n tail.head?) parent new tail.head? from rfl, later.parent?_eq]
      split
      · rfl
      · rename_i outside
        have other : m ≠ n := fun same => outside (by simp [same])
        simp [parent?_insertBefore solid, other]
    · rw [show insertAll doc parent (n :: new) tail.head? =
        insertAll (doc.insertBefore parent n tail.head?) parent new tail.head? from rfl, later.children_eq m apart,
        children_insertBefore_of_ne solid lists.present apart, if_neg]
      rcases fitting.free n (by simp) with none | here
      · simp [none]
      · simpa [here] using fun same => apart same.symm

theorem refilled_removeAll (lists : doc.Lists parent (lead ++ (old ++ tail))) {gone : List NodeId} (mem : gone ⊆ old) :
    Refilled doc (doc.removeAll gone) parent lead gone (old.filter (· ∉ gone)) tail := by
  have parents : ∀ n ∈ gone, doc.parent? n = some parent := fun n member => lists.parents n (by simp [mem member])
  have once := lists.once
  rw [nodup_append, nodup_append] at once
  have stands := lists.removeAll gone
  refine ⟨rearranged_removeAll doc gone, ?_, fun m => ?_, fun m apart =>
    children_removeAll (fun n member => .inr (parents n member)) apart⟩
  · have front : lead.filter (· ∉ gone) = lead :=
      filter_not_mem_eq_self fun n first member => once.2.2 n first n (by simp [mem member]) rfl
    have back : tail.filter (· ∉ gone) = tail :=
      filter_not_mem_eq_self fun n last member => once.2.1.2.2 n (mem member) n last rfl
    rw [filter_append, filter_append, front, back] at stands
    exact stands
  · rw [parent?_removeAll]
    by_cases taken : m ∈ gone
    · simp [taken]
    · by_cases kept : m ∈ old
      · simp [taken, kept, lists.parents m (by simp [kept])]
      · simp [taken, kept]

theorem filter_leftover (old new : List NodeId) :
    (old.filter (· ∉ new) ++ new).filter (· ∉ old.filter (· ∉ new)) = new := by
  have none : (old.filter (· ∉ new)).filter (· ∉ old.filter (· ∉ new)) = [] :=
    filter_eq_nil_iff.mpr fun n mem => by simpa using mem
  rw [filter_append, none, nil_append]
  exact filter_not_mem_eq_self fun n mem => by simp [mem]

theorem refilled_insert_remove (lists : doc.Lists parent (lead ++ (old ++ tail)))
    (fitting : Fitting doc parent lead new tail) :
    Refilled doc ((insertAll doc parent new tail.head?).removeAll (old.filter (· ∉ new))) parent lead old new tail := by
  have inserted := refilled_insertAll lists fitting
  have removed := refilled_removeAll inserted.lists (subset_append_left (old.filter (· ∉ new)) new)
  rw [filter_leftover old new] at removed
  refine ⟨inserted.rearranged.trans removed.rearranged, removed.lists, fun m => ?_, fun m apart => ?_⟩
  · rw [removed.parent?_eq, inserted.parent?_eq]
    by_cases fresh : m ∈ new <;> by_cases stood : m ∈ old <;> simp [fresh, stood]
  · rw [removed.children_eq m apart, inserted.children_eq m apart]

theorem refilled_remove_insert (lists : doc.Lists parent (lead ++ (old ++ tail)))
    (fitting : Fitting doc parent lead new tail) :
    Refilled doc (insertAll (doc.removeAll (old.filter (· ∉ new))) parent new tail.head?) parent lead old new tail := by
  have removed := refilled_removeAll lists (filter_sublist (p := (· ∉ new)) (l := old)).subset
  have stays : ∀ n ∈ new, (doc.removeAll (old.filter (· ∉ new))).parent? n = doc.parent? n := by
    intro n mem
    rw [parent?_removeAll, if_neg (by simp [mem])]
  have inserted := refilled_insertAll removed.lists
    { once := fitting.once
      solid := fun n mem => by
        rw [isFragment, kind_removeAll]
        exact fitting.solid n mem
      inner := fitting.inner
      free := fun n mem => by
        rw [stays n mem]
        exact fitting.free n mem }
  have left : (old.filter (· ∉ old.filter (· ∉ new))).filter (· ∉ new) = [] := by
    simpa using fun n mem apart => ⟨mem, apart⟩
  rw [left, nil_append] at inserted
  refine ⟨removed.rearranged.trans inserted.rearranged, inserted.lists, fun m => ?_, fun m apart => ?_⟩
  · rw [inserted.parent?_eq, parent?_removeAll]
    by_cases fresh : m ∈ new <;> by_cases stood : m ∈ old <;> simp [fresh, stood]
  · rw [inserted.children_eq m apart, removed.children_eq m apart]

theorem rearranged_removeOld (runs : Runs) (doc : Document η π) : Rearranged doc (runs.removeOld doc) := by
  unfold Runs.removeOld
  split
  · exact rearranged_removeAll doc _
  · exact rearranged_removeAll doc _

theorem rearranged_reconcile (parent : NodeId) (old new : List NodeId) (after : Option NodeId) (doc : Document η π) :
    Rearranged doc (reconcile parent old new after doc) := by
  suffices every : ∀ runs : Runs, Rearranged doc (runs.reconcile parent after doc) from every _
  intro runs
  fun_induction Runs.reconcile parent after runs doc with
  | case1 _ doc => exact rearranged_insertAll doc parent _ _
  | case2 runs doc => exact rearranged_removeOld runs doc
  | case3 => assumption
  | case4 =>
    rename_i ih
    exact ih
  | case5 =>
    rename_i ih
    exact ((rearranged_insertBefore _ parent _ _).trans (rearranged_insertBefore _ parent _ _)).trans ih
  | case6 =>
    rename_i ih
    exact (rearranged_remove _ _).trans ih
  | case7 =>
    rename_i ih
    exact (rearranged_insertAll _ parent _ _).trans ih
  | case8 =>
    rename_i ih
    exact ((rearranged_insertBefore _ parent _ _).trans (rearranged_remove _ _)).trans ih
  | case9 =>
    rename_i ih
    exact ih

theorem refilled_reconcile (lists : doc.Lists parent (lead ++ (old ++ tail)))
    (fitting : Fitting doc parent lead new tail) :
    Refilled doc (reconcile parent old new tail.head? doc) parent lead old new tail := by
  have task : Replacement doc parent lead old new tail :=
    ⟨by simpa using lists, fitting.once, fitting.solid, fitting.inner⟩
  refine ⟨rearranged_reconcile parent old new _ doc, by simpa using reconcile_lists task, parent?_reconcile task,
    fun m apart => ?_⟩
  rw [children_reconcile_of_ne task apart]
  refine filter_eq_self.mpr fun n mem => ?_
  have elsewhere : ¬ (n ∈ new ∧ doc.parent? n = some m) := by
    rintro ⟨fresh, stands⟩
    rcases fitting.free n fresh with none | here
    · simp [none] at stands
    · exact apart (Option.some.inj (stands.symm.trans here))
  simp only [elsewhere, decide_false, Bool.not_false]

section

variable {next : Document η π} (refilled : Refilled doc next parent lead old new tail)
variable {node : Node η π}
include refilled

theorem Refilled.node?_other {m : NodeId} (apart : m ≠ parent) (stays : m ∉ old) (strange : m ∉ new) :
    next.node? m = doc.node? m := by
  refine refilled.rearranged.node? ?_ (refilled.children_eq m apart)
  rw [refilled.parent?_eq, if_neg strange, if_neg stays]

theorem Refilled.node?_parent (found : doc.node? parent = some node) (stays : parent ∉ old) (strange : parent ∉ new) :
    next.node? parent = some { node with children := lead ++ (new ++ tail) } := by
  have above : next.parent? parent = node.parent := by
    rw [refilled.parent?_eq, if_neg strange, if_neg stays]
    exact parent?_of_node? found
  rw [refilled.rearranged.of_node? found, above, refilled.lists.children_eq]

theorem Refilled.node?_new {n : NodeId} (found : doc.node? n = some node) (fresh : n ∈ new) (apart : n ≠ parent) :
    next.node? n = some { node with parent := some parent } := by
  have above : next.parent? n = some parent := by rw [refilled.parent?_eq, if_pos fresh]
  have below : next.children n = node.children := by
    rw [refilled.children_eq n apart]
    exact children_of_node? found
  rw [refilled.rearranged.of_node? found, above, below]

end

end Refilling

def Bounded (region : Region) (lead tail : List NodeId) : Prop :=
  match region.ending, region.before, region.start with
  | some ending, _, _ => tail.head? = some ending
  | none, some before, _ => tail.head? = some before
  | none, none, some start => lead.getLast? = some start
  | none, none, none => tail = []

theorem mark_eq {doc : Document η π} {region : Region} {lead tail : List NodeId} (bounded : Bounded region lead tail)
    (listed : region.start ≠ none → doc.Lists region.parent (lead ++ (region.current ++ tail))) :
    region.mark doc = tail.head? := by
  unfold Bounded at bounded
  unfold mark
  split at bounded
  · rename_i ending found
    rw [found]
    exact bounded.symm
  · rename_i before none found
    rw [none, found]
    exact bounded.symm
  · rename_i start noEnding noBefore found
    have lists := listed (by simp [found])
    rw [noEnding, noBefore, found]
    obtain ⟨front, rfl⟩ := getLast?_eq_some_iff.mp bounded
    dsimp only [Option.bind_some]
    cases current : region.current.getLast? with
    | none =>
      rw [getLast?_eq_none_iff.mp current] at lists
      have around : doc.Lists region.parent (front ++ start :: tail) := by simpa using lists
      exact around.next?
    | some last =>
      obtain ⟨others, split⟩ := getLast?_eq_some_iff.mp current
      rw [split] at lists
      have around : doc.Lists region.parent ((front ++ start :: others) ++ last :: tail) := by simpa using lists
      exact around.next?
  · rename_i noEnding noBefore noStart
    simp [noEnding, noBefore, noStart, bounded]

section Claims

variable {doc : Document η π} {parent : NodeId} {lead given tail : List NodeId}

theorem lt_size_of_lists {nodes : List NodeId} (lists : doc.Lists parent nodes) : ∀ n ∈ nodes, n < doc.nodes.size := by
  intro n mem
  obtain ⟨_, found⟩ := Option.isSome_iff_exists.mp (present_of_parent? (lists.parents n mem))
  exact lt_size_of_node? found

/-- A claim over the children between what is before them and the tail. -/
structure Claims (claim : Claim) (given tail : List NodeId) : Prop where
  first_eq : claim.first = (given ++ tail).head?
  ending_eq : claim.ending = tail.head?

theorem claim_run {fuel : Nat} (lists : doc.Lists parent (lead ++ (given ++ tail))) (enough : given.length ≤ fuel) :
    Claim.run doc tail.head? fuel (given ++ tail).head? = given := by
  induction given generalizing lead fuel with
  | nil =>
    cases tail with
    | nil => cases fuel <;> rfl
    | cons => cases fuel <;> simp [Claim.run]
  | cons n given ih =>
    cases fuel with
    | zero => simp at enough
    | succ =>
      have apart : tail.head? ≠ some n := by
        intro first
        have once := (nodup_append.mp lists.once).2.1
        exact (nodup_cons.mp once).1 (mem_append_right given (mem_of_mem_head? first))
      have around : doc.Lists parent ((lead ++ [n]) ++ (given ++ tail)) := by simpa using lists
      have onward : doc.next? n = (given ++ tail).head? := by
        have here : doc.Lists parent (lead ++ n :: (given ++ tail)) := by simpa using lists
        exact here.next?
      simp only [cons_append, head?_cons, Claim.run, if_neg apart, onward]
      rw [ih around (by simpa using enough)]

theorem claim_nodes {claim : Claim} (lists : doc.Lists parent (lead ++ (given ++ tail))) (claims : Claims claim given tail) :
    claim.nodes doc = given := by
  have enough : given.length ≤ doc.nodes.size := by
    refine length_le_size ?_ fun n mem => lt_size_of_lists lists n (by simp [mem])
    exact (nodup_append.mp (nodup_append.mp lists.once).2.1).1
  rw [Claim.nodes, claims.first_eq, claims.ending_eq]
  exact claim_run lists enough

end Claims

section Lines

variable {changed : List NodeId} {parent : NodeId} {claim : Claim}

/-- Where a region of text stands: under a parent, between fixed nodes, with at most one text node. -/
structure Line where
  parent : NodeId
  lead : List NodeId := []
  text : Option (NodeId × String)
  tail : List NodeId

def Line.nodes (line : Line) : List NodeId := line.text.toList.map Prod.fst

def Line.data (line : Line) : String := ((line.text.map Prod.snd).getD "")

structure Line.Stands (line : Line) (doc : Document η π) : Prop where
  lists : doc.Lists line.parent (line.lead ++ (line.nodes ++ line.tail))
  text_eq : ∀ entry ∈ line.text,
    doc.node? entry.1 = some { kind := .text, data := entry.2, parent := some line.parent }
  nonempty : ∀ entry ∈ line.text, entry.2 ≠ ""
  apart : line.parent ∉ line.nodes

theorem Line.Stands.text_eq_none {doc : Document η π} {line : Line} (stands : line.Stands doc) :
    line.text = none ↔ line.data = "" := by
  cases text : line.text with
  | none => simp [Line.data, text]
  | some entry => simpa [Line.data, text] using stands.nonempty entry text

/-- Of the nodes that were there at most those of a list and their parent have changed, and of the parent at most its
children. -/
structure Touched (doc next : Document η π) (parent : NodeId) (changed : List NodeId) : Prop where
  size_le : doc.nodes.size ≤ next.nodes.size
  others : ∀ m < doc.nodes.size, m ≠ parent → m ∉ changed → next.node? m = doc.node? m
  self : ∀ node, doc.node? parent = some node →
    next.node? parent = some { node with children := next.children parent }

theorem mergeItems_text (data : String) : mergeItems [.text data] = if data = "" then [] else [.text data] := by
  by_cases empty : data = "" <;> simp [mergeItems, pushItem, empty]

variable {doc : Document η π} {line : Line}

theorem Line.Stands.erase (stands : line.Stands doc) :
    ({ line with text := none } : Line).Stands (doc.removeAll line.nodes) ∧
      Touched doc (doc.removeAll line.nodes) line.parent line.nodes := by
  have refilled := refilled_removeAll stands.lists (Subset.refl line.nodes)
  have none : line.nodes.filter (· ∉ line.nodes) = [] := filter_eq_nil_iff.mpr fun n mem => by simp [mem]
  rw [none] at refilled
  refine ⟨⟨refilled.lists, by simp, by simp, by simp [nodes]⟩, Nat.le_of_eq refilled.rearranged.size_eq.symm,
    ?_, ?_⟩
  · intro m _ apart stays
    exact refilled.node?_other apart stays (by simp)
  · intro node found
    rw [refilled.node?_parent found stands.apart (by simp), refilled.lists.children_eq]

theorem parent?_setData (doc : Document η π) (n m : NodeId) (data : String) :
    (doc.setData n data).parent? m = doc.parent? m := by
  by_cases same : n = m <;> cases found : doc.node? m <;> simp [parent?, setData, same, found]

theorem children_setData (doc : Document η π) (n m : NodeId) (data : String) :
    (doc.setData n data).children m = doc.children m := by
  by_cases same : n = m <;> cases found : doc.node? m <;> simp [children, setData, same, found]

theorem Line.Stands.patch (stands : line.Stands doc) {n : NodeId} {old data : String} (shown : line.text = some (n, old))
    (given : data ≠ "") :
    ({ line with text := some (n, data) } : Line).Stands (doc.setData n data) ∧
      Touched doc (doc.setData n data) line.parent line.nodes := by
  have nodes : line.nodes = [n] := by simp [Line.nodes, shown]
  have found := stands.text_eq (n, old) (by simp [shown])
  have apart : line.parent ≠ n := by simpa [nodes] using stands.apart
  have others : ∀ m, m ≠ n → (doc.setData n data).node? m = doc.node? m := by
    intro m other
    rw [setData, node?_modifyNode, if_neg fun same => other same.symm]
  have lists : (doc.setData n data).Lists line.parent (line.lead ++ ([n] ++ line.tail)) := by
    have before := stands.lists
    rw [nodes] at before
    refine ⟨by rw [others _ apart]; exact before.present, ?_, before.once, fun m mem => ?_⟩
    · rw [children_setData, before.children_eq]
    · rw [parent?_setData, before.parents m mem]
  refine ⟨⟨lists, ?_, by simpa using given, by simpa [Line.nodes] using apart⟩, by simp [setData, modifyNode], ?_, ?_⟩
  · simp [setData, found]
  · intro m _ _ stays
    exact others m fun same => stays (by simp [nodes, same])
  · intro node here
    rw [others _ apart, children_setData, children_of_node? here]
    exact here

theorem Line.Stands.fill (stands : line.Stands doc) (none : line.text = none) {data : String} (given : data ≠ "") :
    ({ line with text := some (doc.nodes.size, data) } : Line).Stands
        ((doc.createText data).2.insertBefore line.parent doc.nodes.size line.tail.head?) ∧
      Touched doc ((doc.createText data).2.insertBefore line.parent doc.nodes.size line.tail.head?) line.parent
        line.nodes := by
  have before := stands.lists
  rw [show line.nodes = [] by simp [Line.nodes, none]] at before
  have old : ∀ m < doc.nodes.size, (doc.createText data).2.node? m = doc.node? m :=
    (extended_create doc .text data).node?_eq
  have made : (doc.createText data).2.node? doc.nodes.size = some { kind := .text, data } :=
    (node?_create doc .text data _).trans (if_pos rfl)
  obtain ⟨_, there⟩ := Option.isSome_iff_exists.mp before.present
  have bound := lt_size_of_node? there
  have small := lt_size_of_lists before
  have lists : (doc.createText data).2.Lists line.parent (line.lead ++ ([] ++ line.tail)) :=
    (extended_create doc .text data).lists before
  have fitting : Fitting (doc.createText data).2 line.parent line.lead [doc.nodes.size] line.tail :=
    { once := by simp
      solid := by simp [isFragment, kind, made]
      inner := by
        simp only [mem_singleton, forall_eq]
        exact ⟨fun mem => Nat.lt_irrefl _ (small _ (by simp [mem])),
          fun mem => Nat.lt_irrefl _ (small _ (by simp [mem]))⟩
      free := by simp [parent?, made] }
  have refilled := refilled_insertAll lists fitting
  rw [show insertAll (doc.createText data).2 line.parent [doc.nodes.size] line.tail.head? =
    (doc.createText data).2.insertBefore line.parent doc.nodes.size line.tail.head? from rfl, filter_nil,
    nil_append] at refilled
  have apart : line.parent ≠ doc.nodes.size := Nat.ne_of_lt bound
  refine ⟨⟨refilled.lists, ?_, by simpa using given, by simpa [Line.nodes] using apart⟩, ?_, ?_, ?_⟩
  · simpa using refilled.node?_new made (by simp) apart.symm
  · rw [refilled.rearranged.size_eq]
    exact (extended_create doc .text data).size_le
  · intro m below other _
    rw [refilled.node?_other other (by simp) (by simpa using Nat.ne_of_lt below), old m below]
  · intro node found
    rw [refilled.node?_parent ((old _ bound).trans found) (by simp) (by simpa using apart), refilled.lists.children_eq]

structure Lays (region : Region) (line : Line) : Prop where
  parent_eq : region.parent = line.parent
  current_eq : region.current = line.nodes
  bounded : Bounded region line.lead line.tail

/-- A line has come to show other characters, and nothing else has changed. Its text node was there already or is new. -/
structure Line.Shown (line : Line) (doc next : Document η π) (data : String) (text : Option (NodeId × String)) : Prop where
  stands : Line.Stands { line with text } next
  data_eq : Line.data { line with text } = data
  touched : Touched doc next line.parent line.nodes
  fresh : ∀ n ∈ Line.nodes { line with text }, n ∈ line.nodes ∨ doc.nodes.size ≤ n

theorem Line.Stands.update (stands : line.Stands doc) {region : Region} (lays : Lays region line) (data : String)
    (settled : region.start = none ∨ region.ending.isSome ∨ data ≠ "") :
    ∃ text next, region.update (mergeItems [.text data]) doc =
        ({ region with current := Line.nodes { line with text } }, next) ∧ line.Shown doc next data text := by
  rw [mergeItems_text]
  by_cases empty : data = ""
  · obtain ⟨erased, touched⟩ := stands.erase
    refine ⟨none, _, ?_, erased, by simp [Line.data, empty], touched, by simp [Line.nodes]⟩
    have closed : (region.start.isNone || region.ending.isSome) = true := by
      rcases settled with none | ending | some
      · simp [none]
      · simp [ending]
      · exact absurd empty some
    simp only [if_pos empty, Region.update, Region.ensureEnding, if_pos closed, lays.current_eq]
    rfl
  · rw [if_neg empty]
    cases shown : line.text with
    | none =>
      have current : region.current = [] := by simp [lays.current_eq, Line.nodes, shown]
      obtain ⟨filled, touched⟩ := stands.fill shown empty
      have lists := (extended_create doc .text data).lists stands.lists
      rw [← lays.parent_eq, ← lays.current_eq] at lists
      have mark : region.mark (doc.createText data).2 = line.tail.head? := mark_eq lays.bounded fun _ => lists
      refine ⟨some (doc.nodes.size, data), _, ?_, filled, rfl, touched, by simp [Line.nodes]⟩
      simp only [Region.update, current, Region.replace]
      rw [show (doc.createText data).1 = doc.nodes.size from rfl, mark, lays.parent_eq]
      rfl
    | some entry =>
      obtain ⟨n, old⟩ := entry
      have current : region.current = [n] := by simp [lays.current_eq, Line.nodes, shown]
      have text : doc.isText n = true := by
        have found := stands.text_eq (n, old) (by simp [shown])
        simp [isText, kind_of_node? found]
      obtain ⟨patched, touched⟩ := stands.patch shown empty
      refine ⟨some (n, data), _, ?_, patched, rfl, touched, by simp [Line.nodes, shown]⟩
      simp only [Region.update, current, text, if_true]
      rw [show Line.nodes { line with text := some (n, data) } = region.current from current.symm]

def endedBy (claim : Claim) (region : Region) : Region :=
  if claim.ending.isSome then { region with ending := claim.ending } else region

@[simp]
theorem endedBy_parent (claim : Claim) (region : Region) : (endedBy claim region).parent = region.parent := by
  unfold endedBy
  split <;> rfl

@[simp]
theorem endedBy_start (claim : Claim) (region : Region) : (endedBy claim region).start = region.start := by
  unfold endedBy
  split <;> rfl

@[simp]
theorem endedBy_owner (claim : Claim) (region : Region) : (endedBy claim region).owner = region.owner := by
  unfold endedBy
  split <;> rfl

theorem bounded_endedBy {region : Region} {lead given tail : List NodeId} (claims : Claims claim given tail)
    (open_ : region.ending = none) (plain : region.before = none) (sole : tail = [] → region.start = none)
    (current : List NodeId) : Bounded { endedBy claim region with current } lead tail := by
  unfold endedBy Bounded
  cases tail with
  | nil => simp [claims.ending_eq, open_, plain, sole rfl]
  | cons => simp [claims.ending_eq]

theorem Touched.trans {first second third : Document η π} (one : Touched first second parent changed)
    (two : Touched second third parent []) :
    Touched first third parent changed where
  size_le := Nat.le_trans one.size_le two.size_le
  others m bound apart stays := by
    rw [two.others m (Nat.lt_of_lt_of_le bound one.size_le) apart (by simp), one.others m bound apart stays]
  self node found := by
    rw [two.self _ (one.self node found)]

theorem Touched.refl : Touched doc doc parent changed :=
  ⟨Nat.le_refl _, fun _ _ _ _ => rfl, fun node found => by rw [found, children_of_node? found]⟩

theorem adopt_eq (region : Region) (items : List Item) (claim : Claim) (doc : Document η π) :
    region.adopt items claim true doc =
      if items.length = (claim.nodes doc).length ∧ (items.zip (claim.nodes doc)).all (Region.Item.fits doc) then
        ⟨{ endedBy claim region with current := claim.nodes doc },
          fillTexts (items.zip (claim.nodes doc)) doc, true⟩
      else
        let cleared := doc.removeAll ((claim.nodes doc).filter fun n => !items.contains (.node n))
        let shown := ({ endedBy claim region with current := [] } : Region).update items cleared
        ⟨shown.1, shown.2, false⟩ := rfl

/-- What a first showing of text over a line comes to. The line is taken as it is when it has a text node exactly if
there is text. -/
structure Line.Adopted (line : Line) (doc : Document η π) (region : Region) (data : String)
    (adoption : Region.Adoption η π) (text : Option (NodeId × String)) : Prop where
  region_eq : adoption.region = { region with current := Line.nodes { line with text } }
  shown : line.Shown doc adoption.document data text
  lays : Lays adoption.region { line with text }
  matched : (line.text = none ↔ data = "") → adoption.matched = true ∧ adoption.document.changes = doc.changes ∧
    text.map Prod.fst = line.text.map Prod.fst

theorem Line.Stands.adopt (stands : line.Stands doc) (region : Region) (data : String)
    (claims : Claims claim line.nodes line.tail) (parent : region.parent = line.parent) (open_ : region.ending = none)
    (plain : region.before = none) (sole : line.tail = [] → region.start = none) :
    ∃ text, line.Adopted doc (endedBy claim region) data (region.adopt (mergeItems [.text data]) claim true doc) text := by
  have given : claim.nodes doc = line.nodes := claim_nodes stands.lists claims
  have bounded : Bounded { endedBy claim region with current := [] } line.lead line.tail :=
    bounded_endedBy claims open_ plain sole []
  have settled : (endedBy claim region).start = none ∨ (endedBy claim region).ending.isSome ∨ data ≠ "" := by
    unfold endedBy
    cases tail : line.tail with
    | nil => simp [claims.ending_eq, tail, sole tail]
    | cons => simp [claims.ending_eq, tail]
  have parent' : (endedBy claim region).parent = line.parent := (endedBy_parent claim region).trans parent
  have laid : Lays { endedBy claim region with current := [] } { line with text := none } := ⟨parent', rfl, bounded⟩
  have lays : ∀ text, Lays { endedBy claim region with current := Line.nodes { line with text } } { line with text } :=
    fun text => ⟨parent', rfl, bounded_endedBy claims open_ plain sole _⟩
  rw [adopt_eq, given, mergeItems_text]
  by_cases empty : data = ""
  · rw [if_pos empty]
    cases shown : line.text with
    | none =>
      have nodes : line.nodes = [] := by simp [Line.nodes, shown]
      have same : ({ line with text := none } : Line) = line := by rw [← shown]
      refine ⟨none, ?_⟩
      simp only [nodes, length_nil, zip_nil_left, all_nil, and_self, if_true, fillTexts,
        foldl_nil]
      have still : line.Shown doc doc data none :=
        ⟨by rw [same]; exact stands, by simp [Line.data, empty], .refl, by simp [Line.nodes]⟩
      exact ⟨rfl, still, lays none, fun _ => ⟨rfl, rfl, by rw [shown]⟩⟩
    | some entry =>
      have nodes : line.nodes = [entry.1] := by simp [Line.nodes, shown]
      obtain ⟨erased, cleared⟩ := stands.erase
      obtain ⟨text, next, updated, standing, shows, touched, fresh⟩ := erased.update laid data settled
      rw [mergeItems_text, if_pos empty] at updated
      refine ⟨text, ?_⟩
      have gone : (line.nodes.filter fun n => !([] : List Item).contains (.node n)) = line.nodes := by simp
      simp only [nodes, length_nil, length_singleton, Nat.zero_ne_one, false_and, if_false]
      rw [← nodes, gone]
      simp only [updated]
      have anew : line.Shown doc next data text := by
        refine ⟨standing, shows, cleared.trans touched, fun n mem => .inr ?_⟩
        have new := (fresh n mem).resolve_left (by simp [Line.nodes])
        exact Nat.le_trans cleared.size_le new
      exact ⟨rfl, anew, lays text, fun both => by simp [empty, shown] at both⟩
  · rw [if_neg empty]
    cases shown : line.text with
    | none =>
      have nodes : line.nodes = [] := by simp [Line.nodes, shown]
      have same : ({ line with text := none } : Line) = line := by rw [← shown]
      rw [same] at laid
      obtain ⟨text, _, updated, anew⟩ := stands.update laid data settled
      rw [mergeItems_text, if_neg empty] at updated
      refine ⟨text, ?_⟩
      simp only [nodes, length_nil, length_singleton, Nat.one_ne_zero, false_and, if_false, filter_nil]
      rw [show doc.removeAll [] = doc from rfl]
      simp only [updated]
      exact ⟨rfl, anew, lays text, fun both => by simp [empty, shown] at both⟩
    | some entry =>
      obtain ⟨n, old⟩ := entry
      have nodes : line.nodes = [n] := by simp [Line.nodes, shown]
      have found := stands.text_eq (n, old) (by simp [shown])
      have fits : doc.isText n = true := by simp [isText, kind_of_node? found]
      obtain ⟨patched, touched⟩ := stands.patch shown empty
      refine ⟨some (n, data), ?_⟩
      simp only [nodes, length_singleton, zip_cons_cons, zip_nil_left, all_cons, all_nil,
        Region.Item.fits, fits, Bool.and_true, and_self, if_true, fillTexts, foldl_cons, foldl_nil]
      have filled : line.Shown doc (doc.setData n data) data (some (n, data)) :=
        ⟨patched, rfl, touched, by simp [Line.nodes, shown]⟩
      exact ⟨rfl, filled, lays (some (n, data)), fun _ => ⟨rfl, rfl, by rw [shown]; rfl⟩⟩

end Lines

section Nodes

variable {doc : Document η π} {region : Region} {lead given new tail : List NodeId}

theorem mergeItems_nodes (nodes : List NodeId) : mergeItems (nodes.map .node) = nodes.map .node := by
  suffices every : ∀ items : List Item, (nodes.map Item.node).foldl pushItem items = items ++ nodes.map .node from
    every []
  induction nodes with
  | nil => simp
  | cons _ _ ih =>
    intro items
    rw [map_cons, foldl_cons, ih]
    simp [pushItem]

theorem nodesFor_nodes (current nodes : List NodeId) (doc : Document η π) :
    nodesFor current (nodes.map .node) doc = (nodes, doc) := by
  induction nodes generalizing current with
  | nil => rfl
  | cons _ _ ih => simp [nodesFor, ih]

theorem filter_not_contains (nodes others : List NodeId) :
    (nodes.filter fun n => !others.contains n) = nodes.filter (· ∉ others) := by
  congr 1
  funext n
  simp

theorem refilled_replace (lists : doc.Lists region.parent (lead ++ (region.current ++ tail)))
    (bounded : Bounded region lead tail) (fitting : Fitting doc region.parent lead new tail) :
    ∃ next, region.replace new doc = ({ region with current := new }, next) ∧
      Refilled doc next region.parent lead region.current new tail := by
  have refilled := refilled_insert_remove lists fitting
  refine ⟨_, ?_, refilled⟩
  rw [Region.replace, mark_eq bounded fun _ => lists, filter_not_contains]
  rfl

theorem refilled_update (lists : doc.Lists region.parent (lead ++ (region.current ++ tail)))
    (bounded : Bounded region lead tail) (fixed : region.start = none) (fitting : Fitting doc region.parent lead new tail) :
    ∃ next, region.update (mergeItems (new.map .node)) doc = ({ region with current := new }, next) ∧
      Refilled doc next region.parent lead region.current new tail := by
  have settled : (region.start.isNone || region.ending.isSome) = true := by simp [fixed]
  rw [mergeItems_nodes]
  match new with
  | [] =>
    have refilled := refilled_removeAll lists (Subset.refl region.current)
    rw [filter_eq_nil_iff.mpr fun n mem => by simpa using mem] at refilled
    exact ⟨_, by simp only [map_nil, update, ensureEnding, if_pos settled], refilled⟩
  | [n] =>
    obtain ⟨next, replaced, refilled⟩ := refilled_replace lists bounded fitting
    by_cases same : region.current = [n]
    · refine ⟨doc, ?_, ?_⟩
      · simp only [map_cons, map_nil, update, if_pos same]
        rw [← same]
      · rw [same] at lists ⊢
        refine ⟨.refl doc, lists, fun m => ?_, fun _ _ => rfl⟩
        by_cases here : m = n
        · simp [here, lists.parents n (by simp)]
        · simp [here]
    · exact ⟨next, by simp only [map_cons, map_nil, update, if_neg same, replaced], refilled⟩
  | n :: m :: rest =>
    have many : region.update ((n :: m :: rest).map .node) doc =
        if region.current.length ≤ 1 then region.replace (n :: m :: rest) doc
        else ({ region with current := n :: m :: rest },
          reconcile region.parent region.current (n :: m :: rest) (region.mark doc) doc) := by
      have listed := nodesFor_nodes region.current (n :: m :: rest) doc
      simp only [map_cons] at listed
      simp only [map_cons, update, ensureEnding, if_pos settled, listed]
    rw [many]
    split
    · exact refilled_replace lists bounded fitting
    · refine ⟨_, rfl, ?_⟩
      rw [mark_eq bounded fun _ => lists]
      exact refilled_reconcile lists fitting

theorem update_of_empty (empty : region.current = []) (bounded : Bounded region lead tail) (fixed : region.start = none)
    (new : List NodeId) (doc : Document η π) :
    region.update (mergeItems (new.map .node)) doc =
      ({ region with current := new }, insertAll doc region.parent new tail.head?) := by
  have settled : (region.start.isNone || region.ending.isSome) = true := by simp [fixed]
  have replaced : ∀ nodes, region.replace nodes doc =
      ({ region with current := nodes }, insertAll doc region.parent nodes tail.head?) := by
    intro nodes
    rw [Region.replace, mark_eq bounded fun started => absurd fixed started, empty]
    rfl
  rw [mergeItems_nodes]
  match new with
  | [] =>
    simp only [map_nil, update, ensureEnding, if_pos settled, empty]
    rfl
  | [n] => simp [update, empty, replaced]
  | n :: m :: rest =>
    have listed := nodesFor_nodes [] (n :: m :: rest) doc
    simp only [map_cons] at listed
    simp only [map_cons, update, ensureEnding, if_pos settled, empty, listed, length_nil,
      Nat.zero_le, if_true, replaced]

theorem fits_nodes_iff (doc : Document η π) (nodes others : List NodeId) :
    ((nodes.map Item.node).length = others.length ∧
      ((nodes.map Item.node).zip others).all (Region.Item.fits doc) = true) ↔ nodes = others := by
  induction nodes generalizing others with
  | nil => cases others <;> simp
  | cons _ _ ih =>
    cases others with
    | nil => simp
    | cons _ others =>
      have step := ih others
      simp only [length_map, map_cons, length_cons, zip_cons_cons, all_cons,
        Region.Item.fits, Nat.add_right_cancel_iff, Bool.and_eq_true, beq_iff_eq, cons.injEq] at step ⊢
      rw [← step]
      exact ⟨fun ⟨a, b, c⟩ => ⟨b, a, c⟩, fun ⟨b, a, c⟩ => ⟨a, b, c⟩⟩

theorem contains_node (nodes : List NodeId) (n : NodeId) :
    (nodes.map Item.node).contains (.node n) = nodes.contains n := by
  induction nodes with
  | nil => rfl
  | cons _ _ ih =>
    rw [map_cons, contains_cons, contains_cons, ih]
    rfl

theorem fillTexts_nodes (nodes others : List NodeId) (doc : Document η π) :
    fillTexts ((nodes.map Item.node).zip others) doc = doc := by
  induction nodes generalizing others with
  | nil => rfl
  | cons _ _ ih =>
    cases others with
    | nil => rfl
    | cons _ others => exact ih others

theorem refilled_adopt {claim : Claim} (lists : doc.Lists region.parent (lead ++ (given ++ tail)))
    (claims : Claims claim given tail) (open_ : region.ending = none) (plain : region.before = none)
    (fixed : region.start = none) (fitting : Fitting doc region.parent lead new tail) :
    let adoption := region.adopt (mergeItems (new.map .node)) claim true doc
    adoption.region = { endedBy claim region with current := new } ∧
      Refilled doc adoption.document region.parent lead given new tail ∧
      (new = given → adoption.matched = true ∧ adoption.document = doc) := by
  have nodes := claim_nodes lists claims
  have bounded : Bounded { endedBy claim region with current := [] } lead tail :=
    bounded_endedBy claims open_ plain (fun _ => fixed) []
  have still : (endedBy claim region).start = none ∧ (endedBy claim region).parent = region.parent :=
    ⟨(endedBy_start claim region).trans fixed, endedBy_parent claim region⟩
  dsimp only
  rw [adopt_eq, nodes]
  by_cases same : new = given
  · have matched := (fits_nodes_iff doc new given).mpr same
    rw [mergeItems_nodes, if_pos matched, fillTexts_nodes]
    refine ⟨by rw [same], ?_, fun _ => ⟨rfl, rfl⟩⟩
    rw [same]
    refine ⟨.refl doc, lists, fun m => ?_, fun _ _ => rfl⟩
    by_cases here : m ∈ given
    · simp [here, lists.parents m (by simp [here])]
    · simp [here]
  · have differ := mt (fits_nodes_iff doc new given).mp same
    have gone : (given.filter fun n => !(new.map Item.node).contains (.node n)) = given.filter (· ∉ new) := by
      congr 1
      funext n
      rw [contains_node]
      simp
    have shown := update_of_empty rfl bounded still.1 new (doc.removeAll (given.filter (· ∉ new)))
    rw [mergeItems_nodes] at shown ⊢
    rw [if_neg differ]
    dsimp only
    rw [gone, shown]
    refine ⟨rfl, ?_, fun equal => absurd equal same⟩
    rw [show ({ endedBy claim region with current := [] } : Region).parent = region.parent from still.2]
    exact refilled_remove_insert lists fitting

end Nodes

end LiveMarkup.Live
