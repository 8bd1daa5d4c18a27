import LiveMarkup.Proofs.AttributeNames
import LiveMarkup.Proofs.DocumentOrder
import LiveMarkup.Proofs.RoundTrip
import Mathlib.Data.Fintype.EquivFin
import Mathlib.Order.WellFounded

/-!
What it says of nodes that they are equal. On trees in which no node has two attributes of one name it is an equivalence,
a copy is equal to what it is a copy of and has no node of it, and the markup of nodes that are equal differs in the order
of attributes only.
-/

namespace LiveMarkup.Document
open Markup (Tree)
open List

variable {η π : Type} {doc next source : Document η π} {a b c n : NodeId} {fuel : Nat} {nodes others : List NodeId}
  {node : Node η π}

theorem WellFormed.isTree (wellFormed : doc.WellFormed) (there : (doc.node? n).isSome) : doc.IsTree n := by
  have transitive : IsTrans (Fin doc.nodes.size) fun c parent => Relation.TransGen doc.Under c parent :=
    ⟨fun _ _ _ => Relation.TransGen.trans⟩
  have irreflexive : Std.Irrefl fun c parent : Fin doc.nodes.size => Relation.TransGen doc.Under c parent :=
    ⟨fun n => wellFormed.acyclic n⟩
  have order := Finite.wellFounded_of_trans_of_irrefl fun c parent : Fin doc.nodes.size => Relation.TransGen doc.Under c parent
  have below : ∀ n : Fin doc.nodes.size, doc.IsTree n := fun n => by
    induction n using order.induction with
    | _ n ih =>
      refine .node (wellFormed.lists (present_iff.mpr n.isLt)) fun c inside => ?_
      have under := (wellFormed.mem_iff n c).mp inside
      exact ih ⟨c, present_iff.mp (present_of_parent? under)⟩ (.single under)
  exact below ⟨n, present_iff.mp there⟩

theorem sameAttributes_iff {a b : Markup.Attributes} (once : (a.map Prod.fst).Nodup) :
    Tree.sameAttributes a b = true ↔ a.Perm b := by
  simp only [Tree.sameAttributes, Bool.and_eq_true, beq_iff_eq, all_eq_true, contains_iff_mem]
  refine ⟨fun ⟨length, inside⟩ => ?_, fun perm => ⟨perm.length_eq, fun _ => perm.mem_iff.mp⟩⟩
  exact (subperm_of_subset once.of_map inside).perm_of_length_le length.ge

/-- A node and another have one kind and one text, the same attributes in some order, and children that go together. -/
def Matches (source doc : Document η π) (together : NodeId → NodeId → Prop) (a b : NodeId) : Prop :=
  ∃ x y, source.node? a = some x ∧ doc.node? b = some y ∧ x.kind = y.kind ∧ x.data = y.data ∧
    x.attributes.Perm y.attributes ∧ Forall₂ together x.children y.children

/-- Nodes match, and so does all that stands below them, which is no deeper than `fuel`. -/
def Alike (doc : Document η π) : (fuel : Nat) → NodeId → NodeId → Prop
  | 0, _, _ => False
  | fuel + 1, a, b => Matches doc doc (Alike doc fuel) a b

theorem Matches.mono {together closer : NodeId → NodeId → Prop} (wider : ∀ c d, closer c d → together c d)
    (matching : Matches source doc closer a b) : Matches source doc together a b := by
  obtain ⟨x, y, here, there, kind, data, names, below⟩ := matching
  exact ⟨x, y, here, there, kind, data, names, below.imp wider⟩

theorem sameUpTo_iff (distinct : doc.DistinctNames) : doc.sameUpTo fuel a b = true ↔ doc.Alike fuel a b := by
  induction fuel generalizing a b with
  | zero => simp [sameUpTo, Alike]
  | succ _ ih =>
    cases here : doc.node? a with
    | none => simp [sameUpTo, Alike, Matches, here]
    | some =>
      cases there : doc.node? b with
      | none => simp [sameUpTo, Alike, Matches, there]
      | some =>
        simp [sameUpTo, Alike, Matches, here, there, sameAttributes_iff (distinct.of_node? here), forall₂_iff_zip, ih,
          and_assoc]

theorem Alike.symm (alike : doc.Alike fuel a b) : doc.Alike fuel b a := by
  induction fuel generalizing a b with
  | zero => exact alike
  | succ _ ih =>
    obtain ⟨x, y, here, there, kind, data, names, below⟩ := alike
    exact ⟨y, x, there, here, kind.symm, data.symm, names.symm, (below.imp fun _ _ => ih).flip⟩

theorem forall₂_trans {α : Type} {r : α → α → Prop} {xs ys zs : List α} (trans : ∀ x y z, r x y → r y z → r x z)
    (one : Forall₂ r xs ys) (two : Forall₂ r ys zs) : Forall₂ r xs zs := by
  induction one generalizing zs with
  | nil => exact two
  | cons first _ ih =>
    obtain ⟨_, _, first', rest', rfl⟩ := forall₂_cons_left_iff.mp two
    exact .cons (trans _ _ _ first first') (ih rest')

theorem Alike.trans (one : doc.Alike fuel a b) (two : doc.Alike fuel b c) : doc.Alike fuel a c := by
  induction fuel generalizing a b c with
  | zero => exact one
  | succ _ ih =>
    obtain ⟨x, _, here, there, kind, data, names, below⟩ := one
    obtain ⟨_, z, there', last, kind', data', names', below'⟩ := two
    obtain rfl := Option.some.inj (there.symm.trans there')
    exact ⟨x, z, here, last, kind.trans kind', data.trans data', names.trans names',
      forall₂_trans (fun _ _ _ => ih) below below'⟩

theorem Alike.mono (alike : doc.Alike fuel a b) {more : Nat} (enough : fuel ≤ more) : doc.Alike more a b := by
  induction fuel generalizing a b more with
  | zero => exact alike.elim
  | succ fuel ih =>
    obtain ⟨_, rfl⟩ := Nat.exists_eq_add_one_of_ne_zero ((Nat.succ_pos fuel).trans_le enough).ne'
    exact Matches.mono (fun _ _ alike => ih alike (Nat.le_of_succ_le_succ enough)) alike

theorem IsTree.alike (tree : doc.IsTree n) (spans : doc.Spans n nodes) (enough : nodes.length ≤ fuel) :
    doc.Alike fuel n n := by
  induction tree generalizing nodes fuel with
  | node lists _ ih =>
    cases spans with
    | node below =>
      obtain ⟨_, rfl⟩ := Nat.exists_eq_add_one_of_ne_zero (Nat.ne_of_gt (Nat.lt_of_lt_of_le (by simp) enough))
      obtain ⟨x, found⟩ := Option.isSome_iff_exists.mp lists.present
      refine ⟨x, x, found, found, rfl, rfl, .refl _, forall₂_same.mpr fun c inside => ?_⟩
      rw [← children_of_node? found] at inside
      obtain ⟨_, _, split⟩ := append_of_mem inside
      obtain ⟨_, _, _, rfl, here, _⟩ := SpansAll.divide (split ▸ below)
      refine ih c inside here ?_
      simp only [length_cons, length_append] at enough
      omega

theorem IsTree.alike_self (tree : doc.IsTree n) : doc.Alike doc.nodes.size n n := by
  obtain ⟨_, spans⟩ := tree.spans
  exact tree.alike spans (spans.length_le tree)

theorem equivalence_same (distinct : doc.DistinctNames) :
    Equivalence fun a b : {n // doc.IsTree n} => doc.same a b = true where
  refl n := (sameUpTo_iff distinct).mpr (n.2.alike_self.mono (Nat.le_succ _))
  symm same := (sameUpTo_iff distinct).mpr ((sameUpTo_iff distinct).mp same).symm
  trans one two := (sameUpTo_iff distinct).mpr (((sameUpTo_iff distinct).mp one).trans ((sameUpTo_iff distinct).mp two))

section Copying

variable {inside wider : NodeId → Prop}

/-- Nodes keep what is stored of them, and those that stand somewhere stay there. -/
structure Kept (doc next : Document η π) (inside : NodeId → Prop) : Prop where
  parents : ∀ {m parent}, doc.parent? m = some parent → next.parent? m = some parent
  stored : ∀ m, inside m → next.node? m = (doc.node? m).map ({ · with parent := next.parent? m })

theorem Extended.kept (extended : Extended doc next) (old : ∀ m, inside m → m < doc.nodes.size) : Kept doc next inside where
  parents above := (extended.parent?_eq (present_iff.mp (present_of_parent? above))).trans above
  stored m here := by
    rw [extended.parent?_eq (old m here), extended.node?_eq m (old m here)]
    cases found : doc.node? m <;> simp [parent?, found]

theorem Closed.kept {filled : Document η π} (closed : Closed doc filled next node nodes)
    (free : ∀ m ∈ doc.nodes.size :: nodes, filled.parent? m = none) (new : ∀ m, inside m → doc.nodes.size < m) :
    Kept filled next inside where
  parents {m parent} above := by
    have stands : m ∉ doc.nodes.size :: nodes := fun mem => by simp [free m mem] at above
    rw [mem_cons, not_or] at stands
    rw [parent?, closed.others m stands.1, if_neg stands.2]
    exact above
  stored m here := by
    rw [parent?, closed.others m (new m here).ne']
    split <;> cases found : filled.node? m <;> simp

/-- A copy matches what it is a copy of, and so do the nodes below it, down to a depth of `fuel`. All of these are `inside`,
and parents and children know each other. -/
def Mirrors (source doc : Document η π) (inside : NodeId → Prop) : (fuel : Nat) → NodeId → NodeId → Prop
  | 0, _, _ => False
  | fuel + 1, n, c => inside c ∧ doc.Lists c (doc.children c) ∧ Matches source doc (Mirrors source doc inside fuel) n c

theorem Mirrors.frame (mirrors : Mirrors source doc inside fuel n c) (kept : Kept doc next inside)
    (wide : ∀ m, inside m → wider m) : Mirrors source next wider fuel n c := by
  induction fuel generalizing n c with
  | zero => exact mirrors
  | succ _ ih =>
    obtain ⟨here, lists, x, _, found, copied, kind, data, names, below⟩ := mirrors
    have stored := kept.stored c here
    rw [copied, Option.map_some] at stored
    have same : next.children c = doc.children c := (children_of_node? stored).trans (children_of_node? copied).symm
    refine ⟨wide c here, ⟨by simp [stored], rfl, same ▸ lists.once, fun d mem => ?_⟩, x, _, found, stored, kind, data, names,
      below.imp fun _ _ => ih⟩
    exact kept.parents (lists.parents d (same ▸ mem))

theorem Mirrors.alike (mirrors : Mirrors source doc inside fuel n c) (extended : Extended source doc) : doc.Alike fuel n c := by
  induction fuel generalizing n c with
  | zero => exact mirrors
  | succ _ ih =>
    obtain ⟨_, _, x, y, found, copied, kind, data, names, below⟩ := mirrors
    exact ⟨x, y, (extended.node?_eq n (lt_size_of_node? found)).trans found, copied, kind, data, names,
      below.imp fun _ _ => ih⟩

theorem Mirrors.below (mirrors : Mirrors source doc inside fuel n c) :
    doc.IsTree c ∧ ∀ m, doc.Below c m → inside m := by
  induction fuel generalizing n c with
  | zero => exact mirrors.elim
  | succ _ ih =>
    obtain ⟨here, lists, x, y, _, copied, _, _, _, below⟩ := mirrors
    have children : ∀ d ∈ doc.children c, doc.IsTree d ∧ ∀ m, doc.Below d m → inside m := by
      have all : Forall₂ (fun d _ => (doc.IsTree d ∧ ∀ m, doc.Below d m → inside m) ∧ True) y.children x.children :=
        .flip (below.imp fun _ _ mirrors => ⟨ih mirrors, trivial⟩)
      rw [children_of_node? copied]
      exact ((forall₂_and_left ..).mp all).1
    refine ⟨.node lists fun d mem => (children d mem).1, fun m lower => ?_⟩
    rcases lower.cases_top with rfl | ⟨d, mem, lower⟩
    · exact here
    · exact (children d mem).2 m lower

structure Mirrored (source doc next : Document η π) (fuel : Nat) (nodes copies : List NodeId) : Prop
    extends Minted doc next copies where
  mirrors : Forall₂ (Mirrors source next (fun m => doc.nodes.size ≤ m ∧ m < next.nodes.size) fuel) nodes copies

theorem Mirrored.nil (doc : Document η π) : Mirrored source doc doc fuel [] [] := ⟨⟨.refl doc, by simp, .nil⟩, .nil⟩

theorem Mirrored.append {middle : Document η π} {more copies : List NodeId}
    (one : Mirrored source doc middle fuel nodes copies) (two : Mirrored source middle next fuel more others) :
    Mirrored source doc next fuel (nodes ++ more) (copies ++ others) where
  toMinted := one.toMinted.append two.toMinted
  mirrors := by
    refine rel_append (one.mirrors.imp fun _ _ mirrors => ?_) (two.mirrors.imp fun _ _ mirrors => ?_)
    · exact mirrors.frame (two.extended.kept fun m h => h.2) fun m h => ⟨h.1, h.2.trans_le two.extended.size_le⟩
    · exact mirrors.frame ((Extended.refl next).kept fun m h => h.2) fun m h =>
        ⟨one.extended.size_le.trans h.1, h.2⟩

theorem mirrored_copyNode {copyAll : List NodeId → Document η π → List NodeId × Document η π}
    (inner : ∀ (doc : Document η π) nodes, Extended source doc → (∀ n ∈ nodes, source.Alike fuel n n) →
      ∃ copies next, copyAll nodes doc = (copies, next) ∧ Mirrored source doc next fuel nodes copies)
    (extended : Extended source doc) (alike : source.Alike (fuel + 1) n n) (copies : List NodeId) :
    ∃ final, copyNode copyAll copies doc n = (copies ++ [doc.nodes.size], final) ∧
      Mirrored source doc final (fuel + 1) [n] [doc.nodes.size] := by
  obtain ⟨x, _, found, again, _, _, _, below⟩ := alike
  obtain rfl := Option.some.inj (found.symm.trans again)
  have known : doc.node? n = some x := (extended.node?_eq n (lt_size_of_node? found)).trans found
  let begun := (doc.create x.kind x.data).2
  have start : Extended doc begun := extended_create doc x.kind x.data
  have size : begun.nodes.size = doc.nodes.size + 1 := size_create _ _
  obtain ⟨nodes, filled, made, mirrored⟩ := inner begun x.children (extended.trans start) (forall₂_same.mp below)
  have new : ∀ m, begun.nodes.size ≤ m → doc.nodes.size < m := fun m low => Nat.lt_of_lt_of_le (size ▸ Nat.lt_succ_self _) low
  obtain ⟨final, written, closed⟩ := closed_copyNode known made mirrored.extended
    (fun m mem => new m (mirrored.fresh m mem).1) copies
  have bare : filled.node? doc.nodes.size = some { kind := x.kind, data := x.data } :=
    (mirrored.extended.node?_eq _ (size ▸ Nat.lt_succ_self _)).trans (by simp [begun, node?_create])
  have free : ∀ m ∈ doc.nodes.size :: nodes, filled.parent? m = none :=
    forall_mem_cons.mpr ⟨parent?_of_node? bare, fun m mem => (mirrored.fresh m mem).2.2⟩
  have kept : Kept filled final fun m => begun.nodes.size ≤ m ∧ m < filled.nodes.size :=
    closed.kept free fun m h => new m h.1
  have lists : final.Lists doc.nodes.size (final.children doc.nodes.size) := by
    rw [children_of_node? closed.copy_eq]
    refine ⟨by simp [closed.copy_eq], children_of_node? closed.copy_eq, mirrored.once, fun m mem => ?_⟩
    obtain ⟨low, high, _⟩ := mirrored.fresh m mem
    obtain ⟨_, there⟩ := Option.isSome_iff_exists.mp (present_iff.mpr high)
    simp [parent?, closed.others m (Nat.ne_of_gt (new m low)), mem, there]
  have minted := closed.minted
  refine ⟨final, written, minted, .cons ⟨?_, lists, x, _, found, closed.copy_eq, rfl, rfl, .refl _, ?_⟩ .nil⟩
  · obtain ⟨low, high, _⟩ := minted.fresh _ (mem_singleton_self _)
    exact ⟨low, high⟩
  · refine mirrored.mirrors.imp fun _ _ mirrors => mirrors.frame kept fun m h => ?_
    exact ⟨Nat.le_of_lt (new m h.1), closed.size_eq ▸ h.2⟩

theorem mirrored_copyUpTo (fuel : Nat) (doc : Document η π) (nodes : List NodeId) (extended : Extended source doc)
    (alike : ∀ n ∈ nodes, source.Alike fuel n n) :
    ∃ copies next, copyUpTo fuel nodes doc = (copies, next) ∧ Mirrored source doc next fuel nodes copies := by
  induction fuel generalizing doc nodes with
  | zero =>
    cases nodes with
    | nil => exact ⟨[], doc, rfl, .nil doc⟩
    | cons n => exact (alike n (by simp)).elim
  | succ fuel ih =>
    refine copyUpTo_all (fun doc nodes => Extended source doc ∧ ∀ n ∈ nodes, source.Alike (fuel + 1) n n)
      (fun doc next nodes copies => Mirrored source doc next (fuel + 1) nodes copies) (fun doc _ => .nil doc)
      (fun doc n nodes before ⟨extended, alike⟩ => ?_) ⟨extended, alike⟩
    obtain ⟨middle, here, one⟩ := mirrored_copyNode ih extended (alike n (by simp)) before
    exact ⟨_, middle, here, ⟨extended.trans one.extended, fun m inside => alike m (by simp [inside])⟩,
      fun next copies more => one.append more⟩

theorem IsTree.extended (tree : doc.IsTree n) (extended : Extended doc next) :
    next.IsTree n ∧ ∀ m, next.Below n m → m < doc.nodes.size := by
  induction tree with
  | node lists _ ih =>
    have kept := extended.lists lists
    have same := kept.children_eq
    refine ⟨.node (same.symm ▸ kept) fun c inside => (ih c (same ▸ inside)).1, fun m lower => ?_⟩
    rcases lower.cases_top with rfl | ⟨c, inside, lower⟩
    · exact present_iff.mp lists.present
    · exact (ih c (same ▸ inside)).2 m lower

theorem IsTree.copyDeep (tree : doc.IsTree n) : ∃ copy next, doc.copyDeep n = (copy, next) ∧ Extended doc next ∧
    next.parent? copy = none ∧ next.IsTree copy ∧ (∀ m, next.Below copy m → doc.nodes.size ≤ m) ∧
      next.Alike (doc.nodes.size + 1) n copy := by
  obtain ⟨_, next, made, mirrored⟩ := mirrored_copyUpTo (doc.nodes.size + 1) doc [n] (.refl doc)
    (forall_mem_singleton.mpr (tree.alike_self.mono (Nat.le_succ _)))
  obtain ⟨copy, _, mirrors, _, rfl⟩ := forall₂_cons_left_iff.mp mirrored.mirrors
  obtain ⟨copied, below⟩ := mirrors.below
  exact ⟨copy, next, by simp [Document.copyDeep, made], mirrored.extended, (mirrored.fresh copy (by simp)).2.2, copied,
    fun m lower => (below m lower).1, mirrors.alike mirrored.extended⟩

theorem IsTree.copyDeep_same (tree : doc.IsTree n) (distinct : doc.DistinctNames) :
    ∃ copy next, doc.copyDeep n = (copy, next) ∧ Extended doc next ∧ next.IsTree copy ∧ next.IsTree n ∧
      next.parent? copy = none ∧ next.same n copy = true ∧ ∀ m, next.Below copy m → ¬ next.Below n m := by
  obtain ⟨copy, next, made, extended, free, copied, new, alike⟩ := tree.copyDeep
  obtain ⟨kept, old⟩ := tree.extended extended
  have distinct : next.DistinctNames := by
    have whole := distinct.copyDeep n
    rwa [made] at whole
  refine ⟨copy, next, made, extended, copied, kept, free, (sameUpTo_iff distinct).mpr ?_, fun m inside below => ?_⟩
  · exact alike.mono (Nat.succ_le_succ extended.size_le)
  · exact lt_irrefl m ((old m below).trans_le (new m inside))

end Copying

section Writing
open Markup

/-- Two texts are the same but for the order in which opening tags list their attributes. -/
inductive SameUpToOrder : String → String → Prop
  | refl (s : String) : SameUpToOrder s s
  | tag (tag : String) {attributes others : Attributes} (perm : attributes.Perm others) :
    SameUpToOrder (Tree.openTag tag attributes) (Tree.openTag tag others)
  | append {s t s' t' : String} (first : SameUpToOrder s t) (second : SameUpToOrder s' t') :
    SameUpToOrder (s ++ s') (t ++ t')

variable {s t : String}

theorem SameUpToOrder.symm (same : SameUpToOrder s t) : SameUpToOrder t s := by
  induction same with
  | refl s => exact .refl s
  | tag name perm => exact .tag name perm.symm
  | append _ _ one two => exact one.append two

theorem SameUpToOrder.perm (same : SameUpToOrder s t) : s.toList.Perm t.toList := by
  induction same with
  | refl => exact .refl _
  | tag _ perm =>
    rw [Tree.chars_openTag, Tree.chars_openTag]
    exact ((perm.flatMap_right _).append_left _).append_right _
  | append _ _ one two =>
    rw [String.toList_append, String.toList_append]
    exact one.append two

theorem renderAll_append (raw : Bool) (trees more : List Tree) :
    Tree.renderIn.renderAll raw (trees ++ more) = Tree.renderIn.renderAll raw trees ++ Tree.renderIn.renderAll raw more := by
  induction trees with
  | nil => simp [Tree.renderIn.renderAll]
  | cons _ _ ih => simp [Tree.renderIn.renderAll, ih, String.append_assoc]

def written (doc : Document η π) (raw : Bool) (fuel : Nat) (nodes : List NodeId) : String :=
  Tree.renderIn.renderAll raw (doc.treesUpTo fuel nodes)

theorem written_text (found : doc.node? n = some node) (text : node.kind = .text) (raw : Bool) :
    doc.written raw (fuel + 1) [n] = if raw then node.data else Entity.escapeContent node.data := by
  simp [written, treesUpTo_text found text, Tree.renderIn.renderAll, Tree.renderIn]

theorem written_nodes {raw : Bool}
    (each : Forall₂ (fun a b => SameUpToOrder (doc.written raw fuel [a]) (doc.written raw fuel [b])) nodes others) :
    SameUpToOrder (doc.written raw fuel nodes) (doc.written raw fuel others) := by
  induction each with
  | nil => exact .refl _
  | @cons a b nodes others first _ ih =>
    simp only [written, treesUpTo_cons fuel a nodes, treesUpTo_cons fuel b others, renderAll_append] at *
    exact first.append ih

theorem Alike.written (alike : doc.Alike fuel a b) (raw : Bool) :
    SameUpToOrder (doc.written raw fuel [a]) (doc.written raw fuel [b]) := by
  induction fuel generalizing a b raw with
  | zero => exact alike.elim
  | succ fuel ih =>
    obtain ⟨x, y, here, there, kind, data, names, below⟩ := alike
    have inner : ∀ raw, SameUpToOrder (doc.written raw fuel x.children) (doc.written raw fuel y.children) :=
      fun raw => written_nodes (below.imp fun _ _ alike => ih alike raw)
    cases same : x.kind with
    | text =>
      simp only [Document.written, treesUpTo_text here same, treesUpTo_text there (kind ▸ same), data]
      exact .refl _
    | comment =>
      simp only [Document.written, treesUpTo_comment here same, treesUpTo_comment there (kind ▸ same), data]
      exact .refl _
    | fragment =>
      simpa [Document.written, treesUpTo, here, there, same, ← kind] using inner raw
    | element tag =>
      simp only [Document.written, treesUpTo_element here same, treesUpTo_element there (kind ▸ same),
        Tree.renderIn.renderAll, Tree.renderIn]
      split
      · exact (SameUpToOrder.tag tag names).append (.refl _)
      · exact ((((SameUpToOrder.tag tag names).append (inner _)).append (.refl _)).append (.refl _)).append (.refl _) |>.append
          (.refl _)

theorem Alike.inner (alike : doc.Alike (doc.nodes.size + 1) a b) : SameUpToOrder (doc.inner a) (doc.inner b) := by
  obtain ⟨_, _, here, there, kind, _, _, below⟩ := alike
  have raw : doc.holdsRawText a = doc.holdsRawText b := by
    simp only [holdsRawText, tag?, kind_of_node? here, kind_of_node? there, kind]
  rw [Document.inner, Document.inner, raw, children_of_node? here, children_of_node? there]
  exact written_nodes (below.imp fun _ _ alike => (alike.mono (Nat.le_succ _)).written _)

theorem outer_eq (doc : Document η π) (n : NodeId) :
    doc.outer n = doc.written (doc.isText n && doc.inRawText n) (doc.nodes.size + 1) [n] := by
  cases found : doc.node? n with
  | none => simp [outer, written, trees, treesUpTo, found, Tree.renderIn.renderAll]
  | some node =>
    cases kind : node.kind with
    | text | fragment =>
      rw [outer, isText, isFragment, kind_of_node? found, kind]
      rfl
    | comment =>
      simp [outer, written, trees, treesUpTo_comment found kind, Tree.renderIn.renderAll, Tree.renderIn]
    | element =>
      simp [outer, written, trees, treesUpTo_element found kind, Tree.renderIn.renderAll, Tree.renderIn]

theorem length_escape (cs : List Char) : cs.length ≤ (Entity.escape Entity.contentMarks cs).length ∧
    ((Entity.escape Entity.contentMarks cs).length ≤ cs.length → ∀ ch ∈ cs, ch ∉ Entity.contentMarks) := by
  induction cs with
  | nil => simp
  | cons ch _ ih =>
    obtain ⟨_, plain⟩ := ih
    by_cases marked : ch ∈ Entity.contentMarks
    · have two : 2 ≤ (Entity.reference ch).length := by
        obtain rfl | rfl | rfl : ch = '&' ∨ ch = '<' ∨ ch = '>' := by simpa [Entity.contentMarks] using marked
        all_goals decide
      rw [Entity.escape_cons, if_pos (contains_iff_mem.mpr marked), length_append, length_cons]
      exact ⟨by omega, fun short => by omega⟩
    · rw [Entity.escape_cons, if_neg (by simpa using marked), singleton_append, length_cons, length_cons]
      exact ⟨by omega, fun short => forall_mem_cons.mpr ⟨marked, plain (by omega)⟩⟩

theorem escaped_iff (s : String) :
    SameUpToOrder s (Entity.escapeContent s) ↔ ∀ ch ∈ s.toList, ch ∉ Entity.contentMarks := by
  refine ⟨fun same => (length_escape s.toList).2 ?_, fun plain => ?_⟩
  · simpa [Entity.escapeContent] using same.perm.length_eq.ge
  · rw [Entity.escapeContent, Entity.escape_of_plain plain, String.ofList_toList]
    exact .refl s

theorem Alike.outer (alike : doc.Alike (doc.nodes.size + 1) a b) : SameUpToOrder (doc.outer a) (doc.outer b) ↔
    (doc.isText a = true → doc.inRawText a ≠ doc.inRawText b → ∀ ch ∈ (doc.data a).toList, ch ∉ Entity.contentMarks) := by
  have all := alike.written
  obtain ⟨x, _, here, there, kind, data, _⟩ := alike
  have texts : doc.isText b = doc.isText a := by simp only [isText, kind_of_node? here, kind_of_node? there, kind]
  rw [outer_eq, outer_eq, texts]
  by_cases apart : doc.isText a = true ∧ doc.inRawText a ≠ doc.inRawText b
  · obtain ⟨text, apart⟩ := apart
    have isText : x.kind = .text := by simpa [Document.isText, kind_of_node? here] using text
    have wording : doc.data a = x.data := by simp [Document.data, here]
    have escaped := escaped_iff x.data
    rw [written_text here isText, written_text there (kind ▸ isText), ← data, text, wording]
    cases raw : doc.inRawText a with
    | true =>
      have other := Bool.eq_false_iff.mpr fun other => apart (raw.trans other.symm)
      simpa [other] using escaped
    | false =>
      have other := Bool.eq_true_of_not_eq_false fun other => apart (raw.trans other.symm)
      simpa [other] using ⟨fun same => escaped.mp same.symm, fun plain => (escaped.mpr plain).symm⟩
  · have raw : (doc.isText a && doc.inRawText b) = (doc.isText a && doc.inRawText a) := by
      cases text : doc.isText a with
      | false => rfl
      | true => simpa [text, eq_comm] using apart
    rw [raw]
    exact ⟨fun _ text other => absurd ⟨text, other⟩ apart, fun _ => all _⟩

end Writing

/-- Whatever was done to a document, no node has two attributes of one name, and as long as no node was let go, every
node is the top of a tree. On trees, being equal is an equivalence; a deep copy is a tree of new nodes, equal to the one
it is a copy of, which stays as it was; and what equal nodes hold is written alike but for the order of attributes. So
are the nodes themselves, unless they are texts to escape of which one alone stands in an element of raw text. -/
theorem equality_of_trees_is_structural (operations : List (Operation η π)) :
    let doc : Document η π := operations.foldl Operation.apply {}
    doc.DistinctNames ∧
      (Operation.AllAllowed {} operations → ∀ n, (doc.node? n).isSome → doc.IsTree n) ∧
      Equivalence (fun a b : {n // doc.IsTree n} => doc.same a b = true) ∧
      (∀ n, doc.IsTree n → ∃ copy next, doc.copyDeep n = (copy, next) ∧ Extended doc next ∧ next.IsTree copy ∧ next.IsTree n ∧
        next.parent? copy = none ∧ next.same n copy = true ∧ ∀ m, next.Below copy m → ¬ next.Below n m) ∧
      ∀ a b, doc.same a b = true → SameUpToOrder (doc.inner a) (doc.inner b) ∧
        (SameUpToOrder (doc.outer a) (doc.outer b) ↔ (doc.isText a = true → doc.inRawText a ≠ doc.inRawText b →
          ∀ ch ∈ (doc.data a).toList, ch ∉ Markup.Entity.contentMarks)) := by
  intro doc
  have distinct : doc.DistinctNames := DistinctNames.empty.operated_all operations
  refine ⟨distinct, fun allowed n there => (WellFormed.empty.operated_all allowed).isTree there, equivalence_same distinct,
    fun n tree => tree.copyDeep_same distinct, fun a b same => ?_⟩
  have alike := (sameUpTo_iff distinct).mp same
  exact ⟨alike.inner, alike.outer⟩

def scriptOperations : List (Operation Unit Unit) :=
  [.edit (.create (.element "script" false) ""), .edit (.create .text "a<b"), .edit (.append 0 1), .edit (.copy 1 true)]

theorem allAllowed_scriptOperations : Operation.AllAllowed {} scriptOperations :=
  ⟨trivial, trivial, insertable_free (by decide) (by decide) (by decide) (by decide), rfl, trivial⟩

theorem equality_of_trees_is_structural_script :
    let doc : Document Unit Unit := scriptOperations.foldl Operation.apply {}
    doc.IsTree 0 ∧ ∃ copy next, doc.copyDeep 0 = (copy, next) ∧ next.same 0 copy = true := by
  intro doc
  obtain ⟨_, trees, _, copies, _⟩ := equality_of_trees_is_structural scriptOperations
  have tree := trees allAllowed_scriptOperations 0 (by decide)
  obtain ⟨copy, next, made, _, _, _, _, same, _⟩ := copies 0 tree
  exact ⟨tree, copy, next, made, same⟩

/-- A text that stands in a script is written as it is; its copy, which stands nowhere, is escaped. -/
theorem equal_texts_written_differently : let doc : Document Unit Unit := scriptOperations.foldl Operation.apply {}
    Operation.AllAllowed {} scriptOperations ∧ doc.IsTree 1 ∧ doc.IsTree 2 ∧ doc.same 1 2 = true ∧
      doc.outer 1 = "a<b" ∧ doc.outer 2 = "a&lt;b" ∧ ¬ SameUpToOrder (doc.outer 1) (doc.outer 2) := by
  intro doc
  have raw : doc.outer 1 = "a<b" := by decide +kernel
  have escaped : doc.outer 2 = "a&lt;b" := by decide +kernel
  refine ⟨allAllowed_scriptOperations, .leaf (by decide) (by decide), .leaf (by decide) (by decide), by decide +kernel, raw, escaped, fun same => ?_⟩
  rw [raw, escaped] at same
  exact absurd same.perm.length_eq (by decide)

end LiveMarkup.Document
