import LiveMarkup.Proofs.ClientPrograms
import LiveMarkup.Proofs.PathsOverRegions
import LiveMarkup.Proofs.Templates
import Mathlib

/-!
The paths of a client's program lead to the nodes that they are meant for. In a copy of the program's template, an
element stands for each element and a marker for each child that changes, and walking from reference to reference ends
at exactly these nodes, each of them once.
-/

namespace LiveMarkup.Document
open List hiding flatten
open Prod hiding map
open Markup (Tree)

variable {η π : Type} {doc : Document η π}

mutual

theorem Shows.isTree {inside : NodeId → Prop} {parent : Option NodeId} {tree : Tree} {n : NodeId}
    (shows : doc.Shows inside parent tree n) :
    doc.IsTree n ∧ doc.parent? n = parent := by
  match tree with
  | .text _ | .comment _ =>
    have found := shows.2
    exact ⟨.leaf (by simp [found]) (children_of_node? found), parent?_of_node? found⟩
  | .element _ _ _ _ =>
    obtain ⟨_, nodes, found, below⟩ := shows
    have listed : doc.children n = nodes := children_of_node? found
    have each := below.isTree
    refine ⟨.node ⟨by simp [found], rfl, ?_, ?_⟩ ?_, parent?_of_node? found⟩
    · rw [listed]
      exact below.once
    · rw [listed]
      exact fun m mem => (each m mem).2
    · rw [listed]
      exact fun m mem => (each m mem).1

theorem ShowsAll.isTree {inside : NodeId → Prop} {parent : Option NodeId} {trees : List Tree} {nodes : List NodeId}
    (shows : doc.ShowsAll inside parent trees nodes) :
    ∀ n ∈ nodes, doc.IsTree n ∧ doc.parent? n = parent := by
  match trees with
  | [] =>
    obtain rfl : nodes = [] := shows
    simp
  | tree :: trees =>
    obtain ⟨_, _, rfl, first, others⟩ := shows
    intro m mem
    rcases mem_cons.mp mem with rfl | later
    · exact first.isTree
    · exact others.isTree m later

end

theorem Shows.above {inside : NodeId → Prop} {parent : Option NodeId} {tree : Tree} {n : NodeId}
    (shows : doc.Shows inside parent tree n) :
    doc.Shows (fun m => inside m ∧ n ≤ m) parent tree n := by
  match tree with
  | .text _ | .comment _ => exact ⟨⟨shows.1, Nat.le_refl n⟩, shows.2⟩
  | .element _ _ _ _ =>
    obtain ⟨here, nodes, found, below⟩ := shows
    exact ⟨⟨here, Nat.le_refl n⟩, nodes, found,
      below.frame (fun _ _ => rfl) fun m h => ⟨⟨h.1, h.2.le⟩, h.2⟩⟩

theorem ShowsAll.above {inside : NodeId → Prop} {parent : Option NodeId} {trees : List Tree} {nodes : List NodeId}
    (shows : doc.ShowsAll inside parent trees nodes) :
    doc.ShowsAll (fun m => inside m ∧ ∃ r ∈ nodes, r ≤ m) parent trees nodes := by
  induction trees generalizing nodes inside with
  | nil => exact shows
  | cons _ _ ih =>
    obtain ⟨n, rest, rfl, first, others⟩ := shows
    refine ⟨n, rest, rfl, first.above.frame (fun _ _ => rfl) fun m h => ⟨⟨h.1.1, n, by simp, h.2⟩, h.1.2⟩, ?_⟩
    refine (ih others).frame (fun _ _ => rfl) fun m h => ⟨⟨h.1.1, ?_⟩, h.1.2⟩
    obtain ⟨r, mem, low⟩ := h.2
    exact ⟨r, mem_cons_of_mem n mem, low⟩

mutual

def comments : Tree → List String
  | .text _ => []
  | .comment data => [data]
  | .element _ _ _ children => commentsOfAll children

def commentsOfAll : List Tree → List String
  | [] => []
  | tree :: rest => comments tree ++ commentsOfAll rest

end

mutual

theorem Shows.isMarker {inside : NodeId → Prop} {parent : Option NodeId} {tree : Tree} {n m : NodeId}
    (shows : doc.Shows inside parent tree n) (below : doc.Below n m)
    {mark : String} (marker : Live.isMarker doc m mark = true) : mark ∈ comments tree := by
  match tree with
  | .text _ =>
    have found := shows.2
    rcases below.cases_top with rfl | ⟨c, first, _⟩
    · simp [Live.isMarker, isComment, kind_of_node? found] at marker
    · simp [children_of_node? found] at first
  | .comment data =>
    have found := shows.2
    rcases below.cases_top with rfl | ⟨c, first, _⟩
    · have same : doc.data m = data := by simp [Document.data, found]
      simp only [Live.isMarker, Bool.and_eq_true, beq_iff_eq, same] at marker
      simp [comments, marker.2]
    · simp [children_of_node? found] at first
  | .element _ _ _ _ =>
    obtain ⟨_, _, found, inner⟩ := shows
    rcases below.cases_top with rfl | ⟨c, first, lower⟩
    · simp [Live.isMarker, isComment, kind_of_node? found] at marker
    · rw [children_of_node? found] at first
      exact inner.isMarker first lower marker

theorem ShowsAll.isMarker {inside : NodeId → Prop} {parent : Option NodeId} {trees : List Tree} {nodes : List NodeId} {n m : NodeId}
    (shows : doc.ShowsAll inside parent trees nodes) (mem : n ∈ nodes) (below : doc.Below n m) {mark : String}
    (marker : Live.isMarker doc m mark = true) : mark ∈ commentsOfAll trees := by
  match trees with
  | [] =>
    obtain rfl : nodes = [] := shows
    cases mem
  | tree :: trees =>
    obtain ⟨_, _, rfl, here, others⟩ := shows
    rcases mem_cons.mp mem with rfl | later
    · exact mem_append_left _ (here.isMarker below marker)
    · exact mem_append_right _ (others.isMarker later below marker)

end

end LiveMarkup.Document

namespace LiveMarkup.Codegen
open Blueprint Document Live Markup Reactive
open Prod hiding map
open List hiding flatten

variable {η π : Type} {doc : Document η π} {root : NodeId}

section Addresses

variable {address : Address}

def nodeAt? (doc : Document η π) (root : NodeId) : Address → Option NodeId
  | [] => some root
  | index :: parent => (nodeAt? doc root parent).bind fun n => (doc.children n)[index]?

theorem below_nodeAt? {n : NodeId} (found : nodeAt? doc root address = some n) : doc.Below root n := by
  induction address generalizing n with
  | nil =>
    obtain rfl := Option.some.inj found
    exact .self
  | cons _ _ ih =>
    obtain ⟨_, known, here⟩ := Option.bind_eq_some_iff.mp found
    exact (ih known).child (mem_of_getElem? here)

theorem follow?_step (tree : doc.IsTree root) (open_ : ∀ n, doc.Below root n → isMarker doc n regionEnd = false)
    {next : Address} {c : Char} {m : NodeId} (step : stepFrom address c = some next) (found : nodeAt? doc root next = some m)
    (path : List Char) : ∃ n, nodeAt? doc root address = some n ∧ follow? doc n (c :: path) = follow? doc m path := by
  unfold stepFrom at step
  split at step
  · obtain rfl := Option.some.inj step
    obtain ⟨n, known, here⟩ := Option.bind_eq_some_iff.mp found
    refine ⟨n, known, ?_⟩
    have first : doc.firstChild? n = some m := by rw [firstChild?, List.head?_eq_getElem?, here]
    rw [follow?, first]
    rfl
  · rename_i index parent
    obtain rfl := Option.some.inj step
    obtain ⟨p, known, here⟩ := Option.bind_eq_some_iff.mp found
    have above := below_nodeAt? known
    obtain ⟨_, rfl⟩ := List.getElem?_eq_some_iff.mp here
    have earlier : index < (doc.children p).length := by omega
    refine ⟨(doc.children p)[index], ?_, ?_⟩
    · rw [nodeAt?, known]
      exact List.getElem?_eq_getElem earlier
    · have split : doc.children p = (doc.children p).take index ++ (doc.children p)[index] ::
          (doc.children p).drop (index + 1) := by simp
      have next : nextOnPath? doc (doc.children p)[index] = some (doc.children p)[index + 1] := by
        rw [nextOnPath?_unclosed (above.isTree tree) split fun c later =>
          open_ c (above.child (List.mem_of_mem_drop later)), List.head?_drop, here]
      rw [follow?, next]
      rfl
  · cases step

theorem follow?_advance (tree : doc.IsTree root) (open_ : ∀ n, doc.Below root n → isMarker doc n regionEnd = false)
    {origin : Address} {path : List Char} {m : NodeId} (leads : advance origin path = some address)
    (found : nodeAt? doc root address = some m) : ∃ n, nodeAt? doc root origin = some n ∧ follow? doc n path = some m := by
  induction path generalizing origin with
  | nil =>
    obtain rfl := Option.some.inj leads
    exact ⟨m, found, rfl⟩
  | cons _ path ih =>
    rw [advance, foldlM_cons] at leads
    obtain ⟨_, step, onward⟩ := Option.bind_eq_some_iff.mp leads
    obtain ⟨_, known, follows⟩ := ih onward
    obtain ⟨before, first, same⟩ := follow?_step tree open_ step known path
    exact ⟨before, first, same.trans follows⟩

end Addresses

section Depiction

variable {inside : NodeId → Prop} {parent : Option NodeId} {n : NodeId}

def landmarks (doc : Document η π) (n : NodeId) : List NodeId := (doc.children n).filter (!doc.isText ·)

mutual

/-- A node of a document stands for a node of a blueprint: an element for an element, and a marker for what changes.
The children of an element that are no texts stand, in order, for those of the blueprint that are no texts. -/
def Depicts (doc : Document η π) (n : NodeId) : Node → Prop
  | .element element _ children =>
    doc.kind n = .element element.tag element.isSvg ∧
      if isSole children then doc.children n = [] else DepictsAll doc (landmarks doc n) children
  | .text _ => isMarker doc n regionStart = true
  | .expression _ _ => isMarker doc n regionStart = true
  | .component _ _ _ => isMarker doc n regionStart = true

def DepictsAll (doc : Document η π) (nodes : List NodeId) : List Node → Prop
  | [] => nodes = []
  | node :: rest =>
    match staticText? node with
    | some _ => DepictsAll doc nodes rest
    | none => ∃ n others, nodes = n :: others ∧ Depicts doc n node ∧ DepictsAll doc others rest

end

mutual

/-- The nodes that stand for what needs a reference, in document order, and how many calls are made on each. -/
def references (doc : Document η π) (n : NodeId) : Node → List (NodeId × Nat)
  | .element element attributes children =>
    (if element.dynamic then [(n, callsOn attributes children)] else []) ++
      if isSole children then [] else referencesBelow doc (landmarks doc n) children
  | .text _ => [(n, 1)]
  | .expression _ _ => [(n, 1)]
  | .component _ _ _ => [(n, 1)]

def referencesBelow (doc : Document η π) (nodes : List NodeId) : List Node → List (NodeId × Nat)
  | [] => []
  | node :: rest =>
    match staticText? node with
    | some _ => referencesBelow doc nodes rest
    | none =>
      match nodes with
      | [] => []
      | n :: others => references doc n node ++ referencesBelow doc others rest

end

/-- The nodes of references stand at their sites, and they were made one after the other. -/
structure Found (doc : Document η π) (root : NodeId) (inside : NodeId → Prop) (sites : List (Address × Nat))
    (nodes : List (NodeId × Nat)) : Prop where
  each : sites.map (fun site => (nodeAt? doc root site.1, site.2)) = nodes.map fun node => (some node.1, node.2)
  within : ∀ node ∈ nodes, inside node.1
  order : (nodes.map Prod.fst).Pairwise (· < ·)

theorem Found.nil (doc : Document η π) (root : NodeId) (inside : NodeId → Prop) : Found doc root inside [] [] :=
  ⟨rfl, by simp, by simp⟩

theorem Found.one {address : Address} (here : nodeAt? doc root address = some n) (good : inside n) (calls : Nat) :
    Found doc root inside [(address, calls)] [(n, calls)] :=
  ⟨by simp [here], by simpa using good, by simp⟩

theorem Found.append {low high : NodeId → Prop} {sites more : List (Address × Nat)} {nodes others : List (NodeId × Nat)}
    (one : Found doc root low sites nodes) (two : Found doc root high more others) (order : ∀ m r, low m → high r → m < r)
    (first : ∀ m, low m → inside m) (second : ∀ m, high m → inside m) :
    Found doc root inside (sites ++ more) (nodes ++ others) := by
  refine ⟨by rw [map_append, map_append, one.each, two.each], fun node mem => ?_, ?_⟩
  · rcases mem_append.mp mem with here | there
    · exact first _ (one.within node here)
    · exact second _ (two.within node there)
  · rw [map_append]
    refine pairwise_append.mpr ⟨one.order, two.order, fun m here r there => ?_⟩
    obtain ⟨node, mem, rfl⟩ := mem_map.mp here
    obtain ⟨other, member', rfl⟩ := mem_map.mp there
    exact order _ _ (one.within node mem) (two.within other member')

theorem tidiedAll_append (first second : List Tree) :
    Tree.tidiedAll (first ++ second) = Tree.tidiedAll first ++ Tree.tidiedAll second := by
  induction first with
  | nil => rfl
  | cons _ _ ih => rw [cons_append, Tree.tidiedAll, ih, Tree.tidiedAll, cons_append]

theorem tidiedAll_textTrees (run : String) : Tree.tidiedAll (textTrees run) = textTrees run := by
  unfold textTrees
  split <;> rfl

theorem showsAll_textTrees {run : String} {trees : List Tree} {nodes : List NodeId}
    (shows : doc.ShowsAll inside parent (textTrees run ++ trees) nodes) :
    ∃ texts rest, nodes = texts ++ rest ∧ texts.length = (textTrees run).length ∧
      texts.filter (!doc.isText ·) = [] ∧ doc.ShowsAll inside parent trees rest := by
  unfold textTrees at shows ⊢
  split at shows
  · rename_i empty
    exact ⟨[], nodes, rfl, by simp [empty], rfl, shows⟩
  · rename_i some
    obtain ⟨n, rest, rfl, first, others⟩ := shows
    have text : doc.isText n = true := by simp [isText, kind_of_node? first.2]
    exact ⟨[n], rest, rfl, by simp [some], by simp [text], others.frame (fun _ _ => rfl) fun m h => h.1⟩

theorem not_text_of_shows {node : Node} (shows : doc.Shows inside parent (skeleton node).tidied n) : doc.isText n = false := by
  cases node with
  | element =>
    obtain ⟨_, _, found, _⟩ := shows
    simp [isText, kind_of_node? found]
  | _ => simp [isText, kind_of_node? shows.2]

theorem isMarker_of_shows {mark : String} (shows : doc.Shows inside parent (.comment mark) n) : isMarker doc n mark = true := by
  have data : doc.data n = mark := by simp [Document.data, shows.2]
  simp [isMarker, isComment, kind_of_node? shows.2, data]

mutual

theorem depicts_of_shows {inside : NodeId → Prop} {parent : Option NodeId} (node : Node) {n : NodeId} {address : Address}
    (shows : doc.Shows inside parent (skeleton node).tidied n) (here : nodeAt? doc root address = some n) :
    Depicts doc n node ∧ Found doc root inside (sites address node) (references doc n node) := by
  match node with
  | .text _ | .expression _ _ | .component _ _ _ => exact ⟨isMarker_of_shows shows, .one here shows.inside 1⟩
  | .element element attributes children =>
    obtain ⟨good, nodes, found, below⟩ := shows
    have listed : doc.children n = nodes := children_of_node? found
    have inner : (if isSole children then doc.children n = [] else DepictsAll doc (landmarks doc n) children) ∧
        Found doc root (fun m => inside m ∧ n < m) (if isSole children then [] else sitesBelow address 0 "" children)
          (if isSole children then [] else referencesBelow doc (landmarks doc n) children) := by
      cases sole : isSole children with
      | true =>
        rw [sole] at below
        exact ⟨listed.trans below, .nil doc root _⟩
      | false =>
        rw [sole] at below
        have all := depictsAll_of_shows "" children (listed.trans (nil_append nodes).symm) below here
        rwa [← listed] at all
    have own : Found doc root (fun m => inside m ∧ m = n)
        (if element.dynamic then [(address, callsOn attributes children)] else [])
        (if element.dynamic then [(n, callsOn attributes children)] else []) := by
      cases element.dynamic with
      | true => exact .one here ⟨good, rfl⟩ _
      | false => exact .nil doc root _
    rw [Depicts, sites, references]
    refine ⟨⟨kind_of_node? found, inner.1⟩, own.append inner.2 ?_ (fun m h => h.1) fun m h => h.1⟩
    rintro _ _ ⟨_, rfl⟩ ⟨_, later⟩
    exact later

theorem depictsAll_of_shows {inside : NodeId → Prop} {parent : NodeId} (run : String) (nodes : List Node)
    {front back : List NodeId} {address : Address} (listed : doc.children parent = front ++ back)
    (shows : doc.ShowsAll inside (some parent) (Tree.tidiedAll (skeletons run nodes)) back)
    (here : nodeAt? doc root address = some parent) :
    DepictsAll doc (back.filter (!doc.isText ·)) nodes ∧
      Found doc root inside (sitesBelow address front.length run nodes)
        (referencesBelow doc (back.filter (!doc.isText ·)) nodes) := by
  match nodes with
  | [] =>
    rw [skeletons, tidiedAll_textTrees] at shows
    rw [← append_nil (textTrees run)] at shows
    obtain ⟨_, rest, rfl, _, none, past⟩ := showsAll_textTrees shows
    obtain rfl : rest = [] := past
    rw [append_nil, none]
    exact ⟨rfl, .nil doc root inside⟩
  | node :: rest =>
    rw [skeletons] at shows
    rw [DepictsAll, sitesBelow, referencesBelow.eq_def]
    dsimp only
    cases static : staticText? node with
    | some text =>
      rw [static] at shows
      exact depictsAll_of_shows (run ++ text) rest listed shows here
    | none =>
      rw [static, tidiedAll_append, tidiedAll_textTrees] at shows
      obtain ⟨texts, _, rfl, count, none, showing⟩ := showsAll_textTrees shows
      obtain ⟨n, others, rfl, first, later⟩ := showing
      have place : nodeAt? doc root ((front.length + (textTrees run).length) :: address) = some n := by
        rw [nodeAt?, here, ← count]
        simp [listed]
      obtain ⟨depicts, found⟩ := depicts_of_shows node first place
      have more : doc.children parent = (front ++ texts ++ [n]) ++ others := by simp [listed]
      obtain ⟨depictsAll, foundAll⟩ := depictsAll_of_shows "" rest more later.above here
      have length : (front ++ texts ++ [n]).length = front.length + (textTrees run).length + 1 := by simp [count]; omega
      rw [length] at foundAll
      have remaining : (texts ++ n :: others).filter (!doc.isText ·) = n :: others.filter (!doc.isText ·) := by
        rw [filter_append, none, nil_append, filter_cons_of_pos (by simp [not_text_of_shows first])]
      rw [remaining]
      refine ⟨⟨n, _, rfl, depicts, depictsAll⟩, found.append foundAll ?_ (fun m h => h.1) fun m h => h.1.1⟩
      rintro _ _ ⟨_, before⟩ ⟨_, s, mem, low⟩
      exact (before s mem).trans_le low

end

end Depiction

mutual

theorem comments_tidied (tree : Tree) : comments tree.tidied = comments tree := by
  match tree with
  | .text _ => rfl
  | .comment _ => rfl
  | .element _ _ _ children => exact commentsOfAll_tidied children

theorem commentsOfAll_tidied (trees : List Tree) : commentsOfAll (Tree.tidiedAll trees) = commentsOfAll trees := by
  match trees with
  | [] => rfl
  | tree :: trees => rw [Tree.tidiedAll, commentsOfAll, comments_tidied tree, commentsOfAll_tidied trees, commentsOfAll]

end

theorem commentsOfAll_textTrees (run : String) (trees : List Tree) :
    commentsOfAll (textTrees run ++ trees) = commentsOfAll trees := by
  unfold textTrees
  split <;> rfl

mutual

theorem comments_skeleton (node : Node) : ∀ data ∈ comments (skeleton node), data = regionStart := by
  match node with
  | .text _ | .expression _ _ | .component _ _ _ => exact fun _ => mem_singleton.mp
  | .element _ _ children =>
    rw [skeleton, comments]
    split
    · simp [commentsOfAll]
    · exact comments_skeletons "" children

theorem comments_skeletons (run : String) (nodes : List Node) :
    ∀ data ∈ commentsOfAll (skeletons run nodes), data = regionStart := by
  match nodes with
  | [] =>
    have none := commentsOfAll_textTrees run []
    rw [append_nil] at none
    rw [skeletons, none]
    simp [commentsOfAll]
  | node :: rest =>
    rw [skeletons]
    split
    · exact comments_skeletons _ rest
    · rw [commentsOfAll_textTrees, commentsOfAll]
      intro data inside
      rcases mem_append.mp inside with here | later
      · exact comments_skeleton node data here
      · exact comments_skeletons "" rest data later

end

theorem unclosed_of_shows {inside : NodeId → Prop} {parent : Option NodeId} {node : Node} {n m : NodeId}
    (shows : doc.Shows inside parent (skeleton node).tidied n) (below : doc.Below n m) :
    isMarker doc m regionEnd = false := by
  rw [Bool.eq_false_iff]
  intro marker
  have inside := shows.isMarker below marker
  rw [comments_tidied] at inside
  exact absurd (comments_skeleton node _ inside) (by decide)

section Walks

variable {γ τ : Type} {host : Host γ τ} {level : Nat} {graph : Graph (Procedure γ) Datum} {world : World γ τ}
variable {located : List (Address × String)} {locals : List (String × NodeId)} {n : NodeId}

/-- Declares references one after the other, by walking from those that are there. -/
def walkAll (locals : List (String × NodeId)) : List Walk → LiveProgram γ τ (List (String × NodeId))
  | [] => pure locals
  | walk :: rest =>
    match locals.lookup walk.origin with
    | none => .fault .unknownName
    | some n => do
      let found ← Live.walk n walk.path
      walkAll (locals ++ [(walk.declared, found)]) rest

theorem ensures_walk {m : NodeId} {path : String} (follows : follow? world.document n path.toList = some m) :
    (Live.walk n path : LiveProgram γ τ NodeId).Ensures (Procedure.meaning host) level graph world
      fun found graph' world' => found = m ∧ graph' = graph ∧ world' = world := by
  refine Program.ensures_changing ?_
  simp only [follows]
  exact ⟨trivial, trivial, trivial⟩

theorem lookup_of_mem {α β : Type} [BEq α] [LawfulBEq α] {entries : List (α × β)} {key : α} {value : β}
    (once : (entries.map fst).Nodup) (inside : (key, value) ∈ entries) : entries.lookup key = some value := by
  induction entries with
  | nil => cases inside
  | cons entry _ ih =>
    obtain ⟨fresh, once⟩ := nodup_cons.mp once
    rcases mem_cons.mp inside with rfl | later
    · exact lookup_cons_self
    · have apart : key ≠ entry.1 := fun same => fresh (mem_map.mpr ⟨(key, value), later, same⟩)
      rw [lookup_cons, beq_false_of_ne apart]
      exact ih once later

def Declared (doc : Document η π) (root : NodeId) (located : List (Address × String)) (locals : List (String × NodeId)) :
    Prop :=
  locals.map (fun entry => (entry.1, some entry.2)) = located.map fun entry => (entry.2, nodeAt? doc root entry.1)

section

variable (declared : Declared doc root located locals)
include declared

theorem Declared.names : locals.map fst = located.map snd := by
  simpa [Function.comp_def] using congrArg (map fst) declared

theorem Declared.mem {address : Address} {name : String} (inside : (address, name) ∈ located)
    (found : nodeAt? doc root address = some n) : (name, n) ∈ locals := by
  have image : (name, some n) ∈ locals.map fun entry => (entry.1, some entry.2) := by
    rw [declared, ← found]
    exact mem_map_of_mem inside
  obtain ⟨⟨other, m⟩, mem, same⟩ := mem_map.mp image
  obtain ⟨rfl, rfl⟩ : other = name ∧ m = n := by simpa using same
  exact mem

theorem Declared.concat {address : Address} (found : nodeAt? doc root address = some n) (name : String) :
    Declared doc root (located ++ [(address, name)]) (locals ++ [(name, n)]) := by
  unfold Declared at declared ⊢
  rw [map_append, map_append, declared, map_singleton, map_singleton, found]

end

theorem ensures_walkAll {final : List (Address × String)} {walks : List Walk} (chart : Chart located walks final)
    {root : NodeId} (tree : world.document.IsTree root)
    (open_ : ∀ n, world.document.Below root n → isMarker world.document n regionEnd = false)
    (there : ∀ entry ∈ final, (nodeAt? world.document root entry.1).isSome)
    (declared : Declared world.document root located locals) (once : (located.map snd).Nodup) :
    (walkAll locals walks).Ensures (Procedure.meaning host) level graph world fun locals graph' world' =>
      graph' = graph ∧ world' = world ∧ Declared world.document root final locals ∧ (locals.map fst).Nodup := by
  induction chart generalizing locals with
  | nil => exact Program.ensures_pure ⟨rfl, rfl, declared, by rwa [declared.names]⟩
  | @cons _ final _ _ address _ _ name known leads fresh later ih =>
    have next : (address, name) ∈ final := later.subset (by simp)
    obtain ⟨_, found⟩ := Option.isSome_iff_exists.mp (there (address, name) next)
    obtain ⟨_, here, follows⟩ := follow?_advance tree open_ leads found
    have look := lookup_of_mem (by rwa [declared.names]) (declared.mem known here)
    rw [walkAll, look]
    refine (ensures_walk follows).bind ?_
    rintro _ _ _ ⟨rfl, rfl, rfl⟩
    exact ih there (declared.concat found name) (nodup_concat once fresh)

end Walks

section Resolution

variable {element : Blueprint.Element} {attributes : List Attribute} {children : List Node}
variable {inside : NodeId → Prop}

theorem built_under (built : Built false (.element element attributes children)) :
    Built (Element.isSvgName element.tag) (.element element attributes children) := by
  obtain ⟨shape, below⟩ := built
  have same := shape.isSvg_eq
  rw [Bool.false_or] at same
  exact ⟨{ shape with isSvg_eq := by rw [same, Bool.or_self] }, below⟩

theorem presentable_outside (presentable : Presentable true (.element element attributes children))
    (svg : element.tag = "svg") : Presentable false (.element element attributes children) := by
  obtain ⟨fit, below⟩ := presentable
  have known : Element.isSvgName element.tag = true := by rw [svg]; decide
  rw [Bool.true_or] at below
  exact ⟨{ fit with placed := fun _ => .inl svg }, by rwa [known, Bool.or_true]⟩

def readTemplate {γ τ : Type} (svgRoot : Bool) (html : String) : LiveProgram γ τ NodeId :=
  if svgRoot then newSvgTemplate html else newTemplate html

variable {γ τ : Type} {host : Host γ τ} {level : Nat} {graph : Graph (Procedure γ) Datum} {world : World γ τ}

theorem ensures_readTemplate (built : Built false (.element element attributes children))
    (presentable : Presentable (Element.isSvgName element.tag) (.element element attributes children)) {html : String}
    (written : html.toList = (skeleton (.element element attributes children)).chars Entity.allMarks) :
    (readTemplate (element.isSvg && element.tag != "svg") html : LiveProgram γ τ NodeId).Ensures (Procedure.meaning host)
      level graph world fun root graph' world' => graph' = graph ∧
        Templated world world' (skeleton (.element element attributes children)).tidied root := by
  have same : element.isSvg = Element.isSvgName element.tag := built.1.isSvg_eq
  unfold readTemplate
  split
  · rename_i inside
    have svg : Element.isSvgName element.tag = true := by
      rw [← same]
      exact (Bool.and_eq_true_iff.mp inside).1
    have below := built_under built
    rw [svg] at below presentable
    have around : Tree.ReadableAll ReadableNames false
        [.element "svg" true [] [skeleton (.element element attributes children)]] := by
      have name : TagName "svg" := ⟨⟨'s', _, rfl, by decide⟩, all_eq_true.mp (by decide), by decide⟩
      refine ⟨⟨rfl, name, by simp [ReadableNames], fun void => absurd void (by decide), ?_⟩, by simp, trivial⟩
      exact ⟨readable_skeleton _ below presentable, by simp, trivial⟩
    have whole : ("<svg>" ++ html ++ "</svg>").toList = Tree.charsOfAll Entity.allMarks
        [.element "svg" true [] [skeleton (.element element attributes children)]] := by
      have closed : Tree.isVoid "svg" true = false := by decide
      simp [Tree.charsOfAll, Tree.chars, closed, written]
    exact ensures_newSvgTemplate
      (read_tidied Entity.escaping_allMarks (by decide) (by decide) (fun _ names => names) around whole)
  · rename_i outside
    have alone : Presentable false (.element element attributes children) := by
      cases svg : Element.isSvgName element.tag with
      | false => rwa [svg] at presentable
      | true =>
        rw [svg] at presentable
        refine presentable_outside presentable ?_
        simpa [same, svg] using outside
    have readable : Tree.ReadableAll ReadableNames false [skeleton (.element element attributes children)] :=
      ⟨readable_skeleton _ built alone, by simp, trivial⟩
    refine ensures_newTemplate ?_
    refine read_tidied Entity.escaping_allMarks (by decide) (by decide) (fun _ names => names) readable ?_
    rw [written, Tree.charsOfAll, Tree.charsOfAll, append_nil]

/-- The references of a root: the root itself, and those below it. -/
def rootReferences (doc : Document η π) (root : NodeId) (attributes : List Attribute) (children : List Node) :
    List (NodeId × Nat) :=
  (root, callsOn attributes children) :: if isSole children then [] else referencesBelow doc (landmarks doc root) children

theorem found_root {doc : Document η π}
    (shows : doc.Shows inside none (skeleton (.element element attributes children)).tidied root) :
    Found doc root inside (([], callsOn attributes children) :: innerSites [] children)
      (rootReferences doc root attributes children) := by
  -- the root has a reference whether it needs one or not, and its skeleton is the same
  have found : Found doc root inside (sites [] (.element { element with dynamic := true } attributes children))
      (references doc root (.element { element with dynamic := true } attributes children)) :=
    (depicts_of_shows (.element { element with dynamic := true } attributes children) shows rfl).2
  rw [sites, references] at found
  exact found

theorem Found.targets {inside : NodeId → Prop} {sites : List (Address × Nat)} {nodes : List (NodeId × Nat)}
    (found : Found doc root inside sites nodes) :
    (targets sites).map (nodeAt? doc root) = (nodes.flatMap fun node => replicate node.2 node.1).map some := by
  have each := congrArg (flatMap fun entry : Option NodeId × Nat => replicate entry.2 entry.1) found.each
  simpa [Codegen.targets, map_flatMap, flatMap_map] using each

theorem Found.nodes {sites : List (Address × Nat)} {nodes : List (NodeId × Nat)} (found : Found doc root inside sites nodes) :
    (sites.map fst).map (nodeAt? doc root) = (nodes.map fst).map some := by
  simpa [Function.comp_def] using congrArg (map fst) found.each

/-- The references of a program in a copy of its template: each has a name of its own, they are the nodes that stand for
what needs a reference, no two of them the same, and each call is made on the node that it belongs to. -/
structure Resolved (doc : Document η π) (root : NodeId) (attributes : List Attribute) (children : List Node)
    (program : ClientProgram) (locals : List (String × NodeId)) : Prop where
  names_once : (locals.map Prod.fst).Nodup
  nodes_once : (locals.map Prod.snd).Nodup
  nodes_eq : locals.map Prod.snd = (rootReferences doc root attributes children).map Prod.fst
  calls : Forall₂ (fun (statement : Statement) n => (statement.target, n) ∈ locals) program.statements
    ((rootReferences doc root attributes children).flatMap fun node => replicate node.2 node.1)

theorem ensures_walks (built : Built false (.element element attributes children)) (context : Context) {root : NodeId}
    (shows : world.document.Shows inside none (skeleton (.element element attributes children)).tidied root) :
    (walkAll [(ClientProgram.rootName, root)] (rootProgram element attributes children context).1.walks).Ensures
      (Procedure.meaning host) level graph world fun locals graph' world' => graph' = graph ∧ world' = world ∧
        Resolved world.document root attributes children (rootProgram element attributes children context).1 locals := by
  obtain ⟨_, gained, _⟩ := gained_rootProgram built.fitting context
  have found := found_root shows
  have addresses : (rootProgram element attributes children context).1.located.map fst =
      (([], callsOn attributes children) :: innerSites [] children).map fst := by
    rw [map_cons, map_innerSites]
    exact gained.addresses
  have there : ∀ entry ∈ (rootProgram element attributes children context).1.located,
      (nodeAt? world.document root entry.1).isSome := by
    intro entry mem
    have image : nodeAt? world.document root entry.1 ∈
        ((rootReferences world.document root attributes children).map fst).map some := by
      rw [← found.nodes, ← addresses]
      exact mem_map_of_mem (mem_map_of_mem mem)
    obtain ⟨_, _, same⟩ := mem_map.mp image
    simp [← same]
  have start : Declared world.document root [([], ClientProgram.rootName)] [(ClientProgram.rootName, root)] := rfl
  refine (ensures_walkAll (gained.charted charted_start).chart shows.isTree.1 (fun n => unclosed_of_shows shows) there start
    (by simp)).mono ?_
  rintro locals _ _ ⟨sameGraph, sameWorld, declared, once⟩
  have nodes : locals.map snd = (rootReferences world.document root attributes children).map fst := by
    have image : (locals.map snd).map some =
        ((rootProgram element attributes children context).1.located.map fst).map (nodeAt? world.document root) := by
      simpa [Function.comp_def] using congrArg (map snd) declared
    rw [addresses, found.nodes] at image
    exact map_injective_iff.mpr (fun _ _ same => Option.some.inj same) image
  refine ⟨sameGraph, sameWorld, once, ?_, nodes, ?_⟩
  · rw [nodes]
    exact found.order.imp Nat.ne_of_lt
  · obtain ⟨_, same, calls⟩ := gained.statements
    have called : Forall₂ (fun statement place => ∀ n, place = some n → (statement.target, n) ∈ locals)
        (rootProgram element attributes children context).1.statements
        ((targets (([], callsOn attributes children) :: innerSites [] children)).map (nodeAt? world.document root)) := by
      rw [same]
      refine forall₂_map_right_iff.mpr (calls.imp fun statement address known n here => ?_)
      exact declared.mem known here
    rw [found.targets] at called
    exact (forall₂_map_right_iff.mp called).imp fun statement n known => known n rfl

/-- The template that is hoisted for the root of a blueprint can be read, and a copy of it stands for the root: elements
for elements and markers for children that change, in their order. In the copy every walk leads somewhere; the
references are, in document order, the nodes of the elements that change and of the markers, no two of them the same;
and each call is made on the node that it belongs to. -/
theorem template_paths_resolve {trees : List Template.Tree} (template : Template.IsTemplate trees)
    (built : build trees = .ok ⟨false, [.element element attributes children]⟩)
    (presentable : Presentable (Element.isSvgName element.tag) (.element element attributes children)) (context : Context)
    (host : Host γ τ) (level : Nat) (graph : Graph (Procedure γ) Datum) (world : World γ τ)
    (fresh : world.isHydrating = false) :
    let program := (rootProgram element attributes children context).1
    let svgRoot := element.isSvg && element.tag != "svg"
    clientRoot (.element element attributes children) context =
        program.render svgRoot (rootProgram element attributes children context).2 ∧
      (do instantiate (← readTemplate svgRoot program.html)).Ensures (Procedure.meaning host) level graph world
        fun root graph' world' => graph' = graph ∧ Extended world.document world'.document ∧
          world.document.nodes.size ≤ root ∧ Depicts world'.document root (.element element attributes children) ∧
          (walkAll [(ClientProgram.rootName, root)] program.walks).Ensures (Procedure.meaning host) level graph' world'
            fun locals graph'' world'' => graph'' = graph' ∧ world'' = world' ∧
              Resolved world'.document root attributes children program locals := by
  intro program svgRoot
  refine ⟨by rw [clientRoot_element]; rfl, ?_⟩
  have shape : Built false (.element element attributes children) := (built_build template built).1
  have written : program.html.toList = (skeleton (.element element attributes children)).chars Entity.allMarks :=
    html_rootProgram shape context
  refine (ensures_readTemplate shape presentable written).bind ?_
  rintro original _ middle ⟨rfl, extended, shows, rest⟩
  have idle : ∀ id claim, middle.frames.head? = some (.claiming id) → middle.claims[id]? = some claim →
      claim.next = claim.ending := by
    intro id claim first
    rw [rest] at first
    unfold World.isHydrating at fresh
    split at fresh
    · cases fresh
    · rename_i other
      obtain ⟨frames, framed⟩ := head?_eq_some_iff.mp first
      exact absurd framed (other id frames)
  refine (ensures_instantiate_copy shows (fun m h => h.2) idle).mono ?_
  rintro root graph' world' ⟨rfl, more, copied, _⟩
  have low : middle.document.nodes.size ≤ root := copied.inside.1
  refine ⟨rfl, extended.trans more, extended.size_le.trans low, ?_, ?_⟩
  · have here : nodeAt? world'.document root [] = some root := rfl
    exact (depicts_of_shows _ copied here).1
  · exact ensures_walks shape context copied

end Resolution

def placed (start stop : Nat) : Template.Span := ⟨⟨start, 1, start + 1⟩, stop⟩

def greeting : List Template.Tree :=
  [.element "p" []
    [.text "a" (placed 3 4), .element "b" [] [] true (placed 4 8), .expression "n" (placed 8 11)] false (placed 0 15)]

def greetingElement : Blueprint.Element := ⟨"p", false, false, 3, 1, placed 0 15, true⟩

def greetingChildren : List Node :=
  [.text "a", .element ⟨"b", false, false, 0, 0, placed 4 8, false⟩ [] [], .expression ⟨"n", none, false, none⟩ (placed 8 11)]

set_option maxRecDepth 2000 in
theorem isTemplate_greeting : Template.IsTemplate greeting := by
  have parsed : Template.parse "<p>a<b/>\x7bn\x7d</p>" = .ok greeting := by cbv
  exact ⟨_, .inl parsed⟩

theorem build_greeting : build greeting = .ok ⟨false, [.element greetingElement [] greetingChildren]⟩ := by
  have p : Element.isComponent "p" = false := by decide
  have b : Element.isComponent "b" = false := by decide
  have analyzed (span : Template.Span) : analyze "n" span = .ok ⟨"n", none, false, none⟩ := by
    have known : analyze? "n" = some ⟨"n", none, false, none⟩ := by decide +kernel
    rw [analyze, known]
  unfold build greeting
  simp only [Blueprint.nodes]
  unfold Blueprint.node
  simp only [Blueprint.nodes]
  unfold Blueprint.node
  simp [p, b, Blueprint.nodes, analyzed, flatten, splice]
  rfl

theorem presentable_greeting :
    Presentable (Element.isSvgName greetingElement.tag) (.element greetingElement [] greetingChildren) := by
  have text : runs "" greetingChildren = ["a", "", ""] := by decide
  have none : runs "" [] = [""] := rfl
  refine ⟨⟨by decide, by decide, ?_⟩, trivial, ⟨⟨by decide, by decide, ?_⟩, trivial⟩, trivial, trivial⟩
  · simp [text, Text.isAscii]
  · simp [none]

/-- The walks of a paragraph with a text, an element and a value find the paragraph and the marker of the value. -/
theorem template_paths_resolve_greeting :
    let program := (rootProgram greetingElement [] greetingChildren ⟨.client, "rt", {}, []⟩).1
    let host : Host Empty Unit := ⟨nofun, nofun, nofun, nofun, nofun⟩
    (do instantiate (← readTemplate false program.html)).Ensures (Procedure.meaning host) 0 {} { host := () }
      fun root graph world => Depicts world.document root (.element greetingElement [] greetingChildren) ∧
        (walkAll [(ClientProgram.rootName, root)] program.walks).Ensures (Procedure.meaning host) 0 graph world
          fun locals _ _ => Resolved world.document root [] greetingChildren program locals := by
  intro program host
  obtain ⟨_, resolved⟩ := template_paths_resolve isTemplate_greeting build_greeting presentable_greeting
    ⟨.client, "rt", {}, []⟩ host 0 {} { host := () } rfl
  refine resolved.mono ?_
  rintro root graph world ⟨_, _, _, depicts, walks⟩
  refine ⟨depicts, walks.mono ?_⟩
  rintro locals _ _ ⟨_, _, found⟩
  exact found

end LiveMarkup.Codegen
