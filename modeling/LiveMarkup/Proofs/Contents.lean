import LiveMarkup.Proofs.Records
import Mathlib.Data.List.Forall2
import Mathlib.Tactic.Choose

/-!
What nodes hold, as trees. A node carries a tree whatever else is stored of it and in whichever order its nodes were made;
the tree is the only one that it carries, what is computed of the node is that tree, and nodes that carry one tree are
the same.
-/

namespace LiveMarkup.Document
open Markup (Tree)

variable {η π : Type} {doc : Document η π}

section Trees

variable {node : Node η π} {n : NodeId}

theorem treesUpTo_append (fuel : Nat) (first second : List NodeId) :
    doc.treesUpTo fuel (first ++ second) = doc.treesUpTo fuel first ++ doc.treesUpTo fuel second := by
  cases fuel <;> simp [treesUpTo]

theorem treesUpTo_cons (fuel : Nat) (n : NodeId) (rest : List NodeId) :
    doc.treesUpTo fuel (n :: rest) = doc.treesUpTo fuel [n] ++ doc.treesUpTo fuel rest :=
  treesUpTo_append fuel [n] rest

theorem treesUpTo_element {tag : String} {svg : Bool} (found : doc.node? n = some node) (element : node.kind = .element tag svg)
    (fuel : Nat) : doc.treesUpTo (fuel + 1) [n] = [.element tag svg node.attributes (doc.treesUpTo fuel node.children)] := by
  simp [treesUpTo, found, element]

theorem treesUpTo_text (found : doc.node? n = some node) (text : node.kind = .text) (fuel : Nat) :
    doc.treesUpTo (fuel + 1) [n] = [.text node.data] := by
  simp [treesUpTo, found, text]

theorem treesUpTo_comment (found : doc.node? n = some node) (comment : node.kind = .comment) (fuel : Nat) :
    doc.treesUpTo (fuel + 1) [n] = [.comment node.data] := by
  simp [treesUpTo, found, comment]

theorem treesUpTo_map {α : Type} (fuel : Nat) (items : List α) (node : α → NodeId) (tree : α → Tree)
    (each : ∀ item ∈ items, doc.treesUpTo fuel [node item] = [tree item]) :
    doc.treesUpTo fuel (items.map node) = items.map tree := by
  induction items with
  | nil => cases fuel <;> simp [treesUpTo]
  | cons item _ ih =>
    rw [List.map_cons, treesUpTo_cons, each item (by simp), ih fun other mem => each other (by simp [mem])]
    rfl

end Trees

section Carrying

variable {tree : Tree} {n : NodeId}

mutual

def Carries (doc : Document η π) : Tree → NodeId → Prop
  | .text data, n => ∃ node, doc.node? n = some node ∧ node.kind = .text ∧ node.data = data ∧ node.attributes = [] ∧
    node.children = []
  | .comment data, n => ∃ node, doc.node? n = some node ∧ node.kind = .comment ∧ node.data = data ∧
    node.attributes = [] ∧ node.children = []
  | .element tag svg attributes children, n => ∃ node, doc.node? n = some node ∧ node.kind = .element tag svg ∧
    node.data = "" ∧ node.attributes = attributes ∧ CarriesAll doc children node.children

def CarriesAll (doc : Document η π) : List Tree → List NodeId → Prop
  | [], nodes => nodes = []
  | tree :: trees, nodes => ∃ n rest, nodes = n :: rest ∧ Carries doc tree n ∧ CarriesAll doc trees rest

end

def CarriesForest (doc : Document η π) (forest : List Tree) (n : NodeId) : Prop :=
  ∃ node, doc.node? n = some node ∧ node.kind = .fragment ∧ node.data = "" ∧ node.attributes = [] ∧
    CarriesAll doc forest node.children

theorem Carries.record (carries : doc.Carries tree n) :
    ∃ node trees, doc.node? n = some node ∧ doc.CarriesAll trees node.children ∧
      tree.levels = 1 + Tree.levelsOfAll trees := by
  match tree with
  | .text _ | .comment _ =>
    obtain ⟨node, found, _, _, _, empty⟩ := carries
    exact ⟨node, [], found, empty, rfl⟩
  | .element _ _ _ children =>
    obtain ⟨node, found, _, _, _, below⟩ := carries
    exact ⟨node, children, found, below, rfl⟩

theorem Carries.node? (carries : doc.Carries tree n) : ∃ node, doc.node? n = some node :=
  let ⟨node, _, found, _⟩ := carries.record
  ⟨node, found⟩

mutual

theorem Carries.extended {next : Document η π} (extended : Extended doc next) {tree : Tree} {n : NodeId}
    (carries : doc.Carries tree n) : next.Carries tree n := by
  match tree with
  | .text _ | .comment _ =>
    obtain ⟨node, found, rest⟩ := carries
    exact ⟨node, (extended.node?_eq n (lt_size_of_node? found)).trans found, rest⟩
  | .element _ _ _ _ =>
    obtain ⟨node, found, kind, data, names, below⟩ := carries
    exact ⟨node, (extended.node?_eq n (lt_size_of_node? found)).trans found, kind, data, names, below.extended extended⟩

theorem CarriesAll.extended {next : Document η π} (extended : Extended doc next) {trees : List Tree}
    {nodes : List NodeId} (carries : doc.CarriesAll trees nodes) : next.CarriesAll trees nodes := by
  match trees with
  | [] => exact carries
  | tree :: trees =>
    obtain ⟨n, rest, rfl, first, others⟩ := carries
    exact ⟨n, rest, rfl, first.extended extended, others.extended extended⟩

end

mutual

theorem Shows.carries {mem : NodeId → Prop} {parent : Option NodeId} {tree : Tree} {n : NodeId}
    (shows : doc.Shows mem parent tree n) : doc.Carries tree n := by
  match tree with
  | .text _ | .comment _ => exact ⟨_, shows.2, rfl, rfl, rfl, rfl⟩
  | .element _ _ _ _ =>
    obtain ⟨_, _, found, below⟩ := shows
    exact ⟨_, found, rfl, rfl, rfl, below.carries⟩

theorem ShowsAll.carries {mem : NodeId → Prop} {parent : Option NodeId} {trees : List Tree} {nodes : List NodeId}
    (shows : doc.ShowsAll mem parent trees nodes) : doc.CarriesAll trees nodes := by
  match trees with
  | [] => exact shows
  | tree :: trees =>
    obtain ⟨n, rest, rfl, first, others⟩ := shows
    exact ⟨n, rest, rfl, first.carries, others.carries⟩

end

mutual

theorem Carries.unique {tree other : Tree} {n : NodeId} (one : doc.Carries tree n) (two : doc.Carries other n) :
    tree = other := by
  match tree, other with
  | .text _, .text _ | .comment _, .comment _ =>
    obtain ⟨_, found, _, data, _⟩ := one
    obtain ⟨_, found', _, data', _⟩ := two
    obtain rfl := Option.some.inj (found.symm.trans found')
    rw [← data, ← data']
  | .element _ _ _ children, .element _ _ _ others =>
    obtain ⟨_, found, kind, _, names, below⟩ := one
    obtain ⟨_, found', kind', _, names', below'⟩ := two
    obtain rfl := Option.some.inj (found.symm.trans found')
    obtain ⟨rfl, rfl⟩ := Kind.element.inj (kind.symm.trans kind')
    rw [← names, ← names', below.unique below']
  | .text _, .comment _ | .text _, .element .. | .comment _, .text _ | .comment _, .element .. | .element .., .text _
  | .element .., .comment _ =>
    obtain ⟨_, found, kind, _⟩ := one
    obtain ⟨_, found', kind', _⟩ := two
    obtain rfl := Option.some.inj (found.symm.trans found')
    cases kind.symm.trans kind'

theorem CarriesAll.unique {trees others : List Tree} {nodes : List NodeId} (one : doc.CarriesAll trees nodes)
    (two : doc.CarriesAll others nodes) : trees = others := by
  match trees, others with
  | [], [] => rfl
  | [], _ :: _ =>
    obtain rfl : nodes = [] := one
    obtain ⟨_, _, impossible, _⟩ := two
    cases impossible
  | _ :: _, [] =>
    obtain rfl : nodes = [] := two
    obtain ⟨_, _, impossible, _⟩ := one
    cases impossible
  | tree :: trees, other :: others =>
    obtain ⟨_, _, rfl, first, later⟩ := one
    obtain ⟨_, _, same, first', later'⟩ := two
    obtain ⟨rfl, rfl⟩ := List.cons.inj same
    rw [first.unique first', later.unique later']

end

mutual

theorem Carries.exists_levels {tree : Tree} {n : NodeId} (carries : doc.Carries tree n) {count : Nat}
    (some : 0 < count) (bound : count ≤ tree.levels) : ∃ other m, doc.Carries other m ∧ other.levels = count := by
  by_cases here : tree.levels = count
  · exact ⟨tree, n, carries, here⟩
  · match tree with
    | .text _ | .comment _ =>
      simp only [Tree.levels] at bound here
      omega
    | .element _ _ _ _ =>
      obtain ⟨_, _, _, _, _, below⟩ := carries
      simp only [Tree.levels] at bound here
      exact below.exists_levels some (by omega)

theorem CarriesAll.exists_levels {trees : List Tree} {nodes : List NodeId} (carries : doc.CarriesAll trees nodes)
    {count : Nat} (some : 0 < count) (bound : count ≤ Tree.levelsOfAll trees) :
    ∃ other m, doc.Carries other m ∧ other.levels = count := by
  match trees with
  | [] =>
    simp only [Tree.levelsOfAll] at bound
    omega
  | tree :: trees =>
    obtain ⟨_, _, rfl, first, others⟩ := carries
    rw [Tree.levelsOfAll] at bound
    rcases Nat.le_total (Tree.levelsOfAll trees) tree.levels with less | more
    · exact first.exists_levels some (by omega)
    · exact others.exists_levels some (by omega)

end

theorem CarriesAll.levels_le {trees : List Tree} {nodes : List NodeId} (carries : doc.CarriesAll trees nodes) :
    Tree.levelsOfAll trees ≤ doc.nodes.size := by
  have each : ∀ count < Tree.levelsOfAll trees, ∃ m, ∃ other, doc.Carries other m ∧ other.levels = count + 1 := by
    intro count bound
    obtain ⟨other, m, here⟩ := carries.exists_levels (Nat.succ_pos count) bound
    exact ⟨m, other, here⟩
  choose! place carried using each
  have once : ((List.range (Tree.levelsOfAll trees)).map place).Nodup := by
    refine List.Nodup.map_on (fun count mem count' inside' same => ?_) List.nodup_range
    obtain ⟨_, here, levels⟩ := carried count (List.mem_range.mp mem)
    obtain ⟨_, here', levels'⟩ := carried count' (List.mem_range.mp inside')
    rw [same] at here
    rw [here.unique here', levels'] at levels
    exact (Nat.succ.inj levels).symm
  have present : ∀ m ∈ (List.range (Tree.levelsOfAll trees)).map place, m < doc.nodes.size := by
    intro m mem
    obtain ⟨count, bound, rfl⟩ := List.mem_map.mp mem
    obtain ⟨_, here, _⟩ := carried count (List.mem_range.mp bound)
    obtain ⟨_, found⟩ := here.node?
    exact lt_size_of_node? found
  simpa using length_le_size once present

theorem Carries.levels_le {tree : Tree} {n : NodeId} (carries : doc.Carries tree n) : tree.levels ≤ doc.nodes.size := by
  have alone : doc.CarriesAll [tree] [n] := ⟨n, [], rfl, carries, rfl⟩
  simpa [Tree.levelsOfAll] using alone.levels_le

mutual

theorem Carries.treesUpTo {tree : Tree} {n : NodeId} (carries : doc.Carries tree n) {fuel : Nat}
    (deep : tree.levels ≤ fuel) : doc.treesUpTo fuel [n] = [tree] := by
  match tree, fuel with
  | .text data, fuel + 1 =>
    obtain ⟨_, found, kind, rfl, _⟩ := carries
    exact treesUpTo_text found kind fuel
  | .comment data, fuel + 1 =>
    obtain ⟨_, found, kind, rfl, _⟩ := carries
    exact treesUpTo_comment found kind fuel
  | .element tag svg attrs children, fuel + 1 =>
    obtain ⟨_, found, kind, _, rfl, below⟩ := carries
    rw [Tree.levels] at deep
    rw [treesUpTo_element found kind, below.treesUpTo (by omega)]
  | .text _, 0 | .comment _, 0 | .element .., 0 =>
    simp only [Tree.levels] at deep
    omega

theorem CarriesAll.treesUpTo {trees : List Tree} {nodes : List NodeId} (carries : doc.CarriesAll trees nodes) {fuel : Nat}
    (deep : Tree.levelsOfAll trees ≤ fuel) : doc.treesUpTo fuel nodes = trees := by
  match trees with
  | [] =>
    obtain rfl : nodes = [] := carries
    cases fuel <;> simp [Document.treesUpTo]
  | tree :: trees =>
    obtain ⟨_, _, rfl, first, others⟩ := carries
    rw [Tree.levelsOfAll, Nat.max_le] at deep
    rw [treesUpTo_cons, first.treesUpTo deep.1, others.treesUpTo deep.2]
    rfl

end

theorem CarriesAll.trees {trees : List Tree} {nodes : List NodeId} (carries : doc.CarriesAll trees nodes) :
    doc.trees nodes = trees :=
  carries.treesUpTo (Nat.le_succ_of_le carries.levels_le)

theorem sameAttributes_self (attrs : Markup.Attributes) : Tree.sameAttributes attrs attrs = true := by
  simp [Tree.sameAttributes]

mutual

theorem Carries.sameUpTo {tree : Tree} {n m : NodeId} (one : doc.Carries tree n) (two : doc.Carries tree m) {fuel : Nat}
    (deep : tree.levels ≤ fuel) : doc.sameUpTo fuel n m = true := by
  match tree, fuel with
  | .text data, fuel + 1 | .comment data, fuel + 1 =>
    obtain ⟨_, found, kind, data, names, children⟩ := one
    obtain ⟨_, found', kind', data', names', children'⟩ := two
    simp [Document.sameUpTo, found, found', kind, kind', data, data', names, names', children, children',
      sameAttributes_self]
  | .element tag svg attrs children, fuel + 1 =>
    obtain ⟨_, found, kind, data, names, below⟩ := one
    obtain ⟨_, found', kind', data', names', below'⟩ := two
    rw [Tree.levels] at deep
    have deep' : Tree.levelsOfAll children ≤ fuel := by omega
    obtain ⟨lengths, all⟩ := below.sameUpTo below' deep'
    simp [Document.sameUpTo, found, found', kind, kind', data, data', names, names', sameAttributes_self, lengths]
    simpa using all
  | .text _, 0 | .comment _, 0 | .element .., 0 =>
    simp only [Tree.levels] at deep
    omega

theorem CarriesAll.sameUpTo {trees : List Tree} {nodes others : List NodeId} (one : doc.CarriesAll trees nodes)
    (two : doc.CarriesAll trees others) {fuel : Nat} (deep : Tree.levelsOfAll trees ≤ fuel) :
    nodes.length = others.length ∧ ((nodes.zip others).all fun (n, m) => doc.sameUpTo fuel n m) = true := by
  match trees with
  | [] =>
    obtain rfl : nodes = [] := one
    obtain rfl : others = [] := two
    exact ⟨rfl, rfl⟩
  | tree :: trees =>
    obtain ⟨_, _, rfl, first, later⟩ := one
    obtain ⟨_, _, rfl, first', later'⟩ := two
    rw [Tree.levelsOfAll, Nat.max_le] at deep
    obtain ⟨lengths, all⟩ := later.sameUpTo later' deep.2
    exact ⟨by simp [lengths], by simp [first.sameUpTo first' deep.1, all]⟩

end

theorem Carries.same {m : NodeId} (one : doc.Carries tree n) (two : doc.Carries tree m) : doc.same n m = true :=
  one.sameUpTo two (Nat.le_succ_of_le one.levels_le)

theorem CarriesForest.same {forest : List Tree} {n m : NodeId} (one : doc.CarriesForest forest n)
    (two : doc.CarriesForest forest m) : doc.same n m = true := by
  obtain ⟨_, found, kind, data, names, below⟩ := one
  obtain ⟨_, found', kind', data', names', below'⟩ := two
  obtain ⟨lengths, all⟩ := below.sameUpTo below' below.levels_le
  simp [Document.same, Document.sameUpTo, found, found', kind, kind', data, data', names, names', sameAttributes_self,
    lengths]
  simpa using all

end Carrying

end LiveMarkup.Document
