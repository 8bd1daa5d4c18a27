import LiveMarkup.Proofs.Resolutions
import LiveMarkup.Proofs.StandIns

/-!
Reactions that run again. Each time a region is shown, its view is asked anew: getters may answer otherwise, markup is read
again, and lazy views are those that they were. When all getters answer as they did before, the region shows what it showed,
and what its parent holds is written as before. Fragments are what spoils this: a node of the view that is a fragment is
empty once it has been shown.
-/

namespace LiveMarkup.Document
open Markup (Tree)

variable {η π : Type} {doc : Document η π}

theorem Shows.parent?_eq {mem : NodeId → Prop} {parent : Option NodeId} {tree : Tree} {n : NodeId}
    (shows : doc.Shows mem parent tree n) : doc.parent? n = parent := by
  cases tree with
  | text data | comment data => exact parent?_of_node? shows.2
  | element =>
    obtain ⟨_, _, found, _⟩ := shows
    exact parent?_of_node? found

theorem rearranged_orphan (doc : Document η π) (nodes : List NodeId) : Rearranged doc (doc.orphan nodes) := by
  induction nodes generalizing doc with
  | nil => exact .refl doc
  | cons n _ ih => exact (rearranged_setParent doc n none).trans (ih _)

end LiveMarkup.Document

namespace LiveMarkup.Reactive
open Program hiding bind_ok

variable {P : Type → Type} {σ ν : Type} [BEq ν]

theorem rerun_effect (self : Runner P σ ν) {owner : OwnerId} {task : P Unit} {state clean last : State P σ ν}
    (body_eq : (state.graph.owners.get? owner).bind Owner.body = some (.effect task))
    (cleaned : Run.clean self owner state = .ok () clean)
    (ran : self (.perform task) { clean with
      graph := { clean.graph with owner := some owner, observer := some owner }
      history := .began owner :: clean.history } = .ok () last) :
    Run.rerun self owner state = .ok () { last with
      graph := { last.graph with owner := clean.graph.owner, observer := clean.graph.observer } } := by
  have mem : Run.inContext (some owner) (some owner) (Run.runBody self (.effect task))
      { clean with history := .began owner :: clean.history } = .ok () { last with
        graph := { last.graph with owner := clean.graph.owner, observer := clean.graph.observer } } := by
    show EStateM.bind (self (.perform task)) _ _ = _
    rw [EStateM.bind, ran]
    rfl
  rw [Run.rerun, run_see, body_eq]
  show EStateM.bind (Run.clean self owner) _ _ = _
  rw [EStateM.bind, cleaned]
  exact mem

end LiveMarkup.Reactive

namespace LiveMarkup.Live
open Document Markup Reactive List
open Program hiding bind_ok

variable {γ τ : Type} {host : Host γ τ} {id : RegionId} {world world' : World γ τ} {lazy : LazyId} {view shown : View γ}
  {state final : State (Procedure γ) (World γ τ) Datum} {portion : Portion} {item : Item}

section Forcing

variable {self : Runner (Procedure γ) (World γ τ) Datum}

def World.given (world : World γ τ) (lazy : LazyId) : Option (View γ) := (world.lazies[lazy]?).bind Lazy.value

def World.Offers (world : World γ τ) (lazy : LazyId) : Prop :=
  ∃ found, world.lazies[lazy]? = some found ∧ (found.value.isSome ∨ found.code.isSome)

theorem run_force (self : Runner (Procedure γ) (World γ τ) Datum) {found : Lazy γ}
    (there : state.outside.lazies[lazy]? = some found) (value : found.value = some shown) :
    (force lazy).run self state = .ok shown state := by
  have seen : (seeing fun world : World γ τ => world.lazies[lazy]?).run self state = .ok (some found) state := by
    rw [← there]
    rfl
  rw [force, run_then seen]
  simp only [value]
  rfl

theorem run_force_given (self : Runner (Procedure γ) (World γ τ) Datum) (given : state.outside.given lazy = some shown) :
    (force lazy).run self state = .ok shown state := by
  obtain ⟨_, there, value⟩ := Option.bind_eq_some_iff.mp given
  exact run_force self there value

theorem given_of_answer {run : LiveProgram γ τ (View γ)} (mem : lazy < final.outside.lazies.size) (ran : (do
      let view ← run
      altering fun world => { world with lazies := world.lazies.modify lazy ({ · with value := some view }) }
      return view : LiveProgram γ τ (View γ)).run self state = .ok shown final) : final.outside.given lazy = some shown := by
  obtain ⟨_, asked, _, ran⟩ := Program.bind_ok ran
  cases ran
  have bound : lazy < asked.outside.lazies.size := mem.trans_le Array.size_modify.le
  show ((asked.outside.lazies.modify lazy _)[lazy]?).bind Lazy.value = some shown
  rw [Array.getElem?_modify, if_pos rfl, Array.getElem?_eq_getElem bound]
  rfl

theorem given_of_force (offers : state.outside.Offers lazy) (forced : (force lazy).run self state = .ok shown final)
    (more : state.outside.lazies.size ≤ final.outside.lazies.size) : final.outside.given lazy = some shown := by
  obtain ⟨found, there, ready⟩ := offers
  cases value : found.value with
  | some =>
    rw [run_force self there value] at forced
    cases forced
    simp [World.given, there, value]
  | none =>
    obtain ⟨code, coded⟩ : ∃ code, found.code = some code := by simpa [value, Option.isSome_iff_exists] using ready
    have seen : (seeing fun world : World γ τ => world.lazies[lazy]?).run self state = .ok (some found) state := by
      rw [← there]
      rfl
    rw [force, run_then seen] at forced
    simp only [value, coded] at forced
    obtain ⟨_, asking, _, forced⟩ := Program.bind_ok forced
    have bound : lazy < state.outside.lazies.size := (Array.getElem?_eq_some_iff.mp there).1
    have answered := fun run => @given_of_answer _ _ lazy shown asking final self run (bound.trans_le more)
    cases owned : found.owner with
    | some | none =>
      simp only [owned] at forced
      exact answered _ forced

end Forcing

section Asking

/-- What was there has been left as it was: the nodes, the region, and the views that lazy ones have given. -/
structure Undisturbed (id : RegionId) (world world' : World γ τ) : Prop where
  document : Extended world.document world'.document
  region_eq : world'.regions[id]? = world.regions[id]?
  given : ∀ lazy view, world.given lazy = some view → world'.given lazy = some view
  lazies : world.lazies.size ≤ world'.lazies.size

theorem Undisturbed.refl (world : World γ τ) : Undisturbed id world world :=
  ⟨.refl _, rfl, fun _ _ same => same, le_rfl⟩

theorem Undisturbed.trans {first second third : World γ τ} (one : Undisturbed id first second)
    (two : Undisturbed id second third) : Undisturbed id first third where
  document := one.document.trans two.document
  region_eq := two.region_eq.trans one.region_eq
  given lazy view same := two.given lazy view (one.given lazy view same)
  lazies := one.lazies.trans two.lazies

/-- The nodes that markup gives, which stand nowhere, and the world with them. -/
def World.reading (world : World γ τ) (markup : String) : List NodeId × World γ τ :=
  let (fragment, doc) := world.document.ofTrees (Markup.read markup).forest
  (doc.children fragment, { world with document := doc.orphan (doc.children fragment) })

theorem reading_shows (id : RegionId) (world : World γ τ) (markup : String) :
    Undisturbed id world (world.reading markup).2 ∧ (world.reading markup).2.document.ShowsAll
      (fun m => world.document.nodes.size ≤ m ∧ m < (world.reading markup).2.document.nodes.size) none
      (Markup.read markup).forest (world.reading markup).1 := by
  obtain ⟨nodes, next, read, extended, _, fragment, shows⟩ := ofTrees_shows world.document (Markup.read markup).forest
  have result : world.reading markup = (nodes, { world with document := next.orphan nodes }) := by
    simp only [World.reading, read, children_of_node? fragment]
  have records : ∀ m, (next.orphan nodes).node? m = if m ∈ nodes then (next.node? m).map ({ · with parent := none }) else next.node? m :=
    fun m => node?_setParents next nodes none m
  have size : (next.orphan nodes).nodes.size = next.nodes.size := (rearranged_orphan next nodes).size_eq
  rw [result]
  refine ⟨⟨⟨?_, fun m bound => ?_⟩, rfl, fun _ _ same => same, le_rfl⟩, ?_⟩
  · exact extended.size_le.trans size.symm.le
  · have old : m ∉ nodes := fun mem => Nat.lt_asymm bound (shows.inside m mem).1
    exact ((records m).trans (if_neg old)).trans (extended.node?_eq m bound)
  · have loose := shows.reparent none (fun n mem => (records n).trans (if_pos mem))
      fun m _ apart => (records m).trans (if_neg apart)
    refine loose.frame (fun _ _ => rfl) fun m inner => ⟨inner.1.le, ?_⟩
    exact Nat.lt_of_lt_of_eq inner.2 size.symm

/-- A view is asked what it consists of, with `fuel` jobs inside each other. Its getters give the listed answers, in the
order in which they are asked, and what was there is left as it was. No node of the view is a fragment, and no lazy view
is asked while its code runs. -/
inductive Asked (host : Host γ τ) (id : RegionId) :
    Nat → View γ → State (Procedure γ) (World γ τ) Datum → List (View γ) → List Item →
      State (Procedure γ) (World γ τ) Datum → Prop
  | empty (fuel : Nat) (state) : Asked host id fuel .empty state [] [] state
  | text (fuel : Nat) (data : String) (state) : Asked host id fuel (.text data) state [] [.text data] state
  | node (fuel : Nat) {n : NodeId} {state} (solid : state.outside.document.isFragment n = false) :
    Asked host id fuel (.node n) state [] [.node n] state
  | html (fuel : Nat) {markup : String} (state) (complete : (Markup.read markup).complete = true) :
    Asked host id fuel (.html markup) state [] ((state.outside.reading markup).1.map .node)
      { state with outside := (state.outside.reading markup).2 }
  | nil (fuel : Nat) (state) : Asked host id fuel (.list []) state [] [] state
  | cons {fuel : Nat} {view : View γ} {views : List (View γ)} {state between final} {answers more : List (View γ)}
    {items others : List Item} (first : Asked host id fuel view state answers items between)
    (rest : Asked host id fuel (.list views) between more others final) :
    Asked host id fuel (.list (view :: views)) state (answers ++ more) (items ++ others) final
  | dynamic {fuel : Nat} {source : Source γ} {shown : View γ} {state between final} {answers : List (View γ)} {items : List Item}
    (asked : (Program.call (.view source)).run (Job.run (Procedure.meaning host) (fuel + 1)) state = .ok shown between)
    (quiet : Undisturbed id state.outside between.outside) (inside : Asked host id fuel shown between answers items final) :
    Asked host id (fuel + 1) (.dynamic source) state (shown :: answers) items final
  | deferred {fuel : Nat} {lazy : LazyId} {shown : View γ} {state between final} {answers : List (View γ)} {items : List Item}
    (offers : state.outside.Offers lazy)
    (forced : (force lazy).run (Job.run (Procedure.meaning host) (fuel + 1)) state = .ok shown between)
    (quiet : Undisturbed id state.outside between.outside) (inside : Asked host id fuel shown between answers items final) :
    Asked host id (fuel + 1) (.deferred lazy) state answers items final

variable {fuel : Nat} {answers : List (View γ)} {items : List Item}

theorem Asked.run_items (asked : Asked host id fuel view state answers items final) :
    view.items.run (Job.run (Procedure.meaning host) fuel) state = .ok items final := by
  induction asked with
  | empty => rfl
  | text => rfl
  | @node _ n state solid =>
    show EStateM.Result.ok (if state.outside.document.isFragment n then _ else _) state = _
    rw [solid]
    rfl
  | @html _ _ _ complete =>
    rw [View.items, readFragment, complete]
    rfl
  | nil => rfl
  | cons _ _ first rest =>
    rw [View.items] at rest
    rw [View.items, View.itemsOfAll, run_then first, run_then rest]
    rfl
  | dynamic asked _ _ ih =>
    rw [View.items, run_then asked]
    exact run_call ih
  | deferred _ forced _ _ ih =>
    rw [View.items, run_then forced]
    exact run_call ih

theorem Asked.undisturbed (asked : Asked host id fuel view state answers items final) :
    Undisturbed id state.outside final.outside := by
  induction asked with
  | empty | text | node | nil => exact .refl _
  | @html _ markup state => exact (reading_shows id state.outside markup).1
  | cons _ _ first rest => exact first.trans rest
  | dynamic _ quiet _ ih | deferred _ _ quiet _ ih => exact quiet.trans ih

end Asking

section Amounting

variable {fuel floor : Nat} {answers more rest : List (View γ)} {items : List Item} {doc next : Document γ Property}

/-- What a region is to show in one place: a text, a given node, or a tree that markup says. -/
inductive Portion where
  | text (data : String)
  | node (node : NodeId)
  | tree (tree : Tree)

/-- An item for a portion, as it is when a view has been asked: what markup says is made anew and stands nowhere yet. -/
inductive Issued (doc : Document γ Property) (floor : Nat) : Portion → Item → Prop where
  | text (data : String) : Issued doc floor (.text data) (.text data)
  | node {n : NodeId} (solid : doc.isFragment n = false) : Issued doc floor (.node n) (.node n)
  | tree {tree : Tree} {m : NodeId} (shows : doc.Shows (fun x => floor ≤ x ∧ x < doc.nodes.size) none tree m) :
    Issued doc floor (.tree tree) (.node m)

/-- With these answers of its getters, and with lazy views as they are, a view amounts to portions. -/
inductive Amounts (world : World γ τ) : View γ → List (View γ) → List Portion → Prop where
  | empty : Amounts world .empty [] []
  | text (data : String) : Amounts world (.text data) [] [.text data]
  | node {n : NodeId} (solid : world.document.isFragment n = false) : Amounts world (.node n) [] [.node n]
  | html (markup : String) : Amounts world (.html markup) [] ((Markup.read markup).forest.map .tree)
  | nil : Amounts world (.list []) [] []
  | cons {view : View γ} {views : List (View γ)} {answers more : List (View γ)} {portions others : List Portion}
    (first : Amounts world view answers portions) (rest : Amounts world (.list views) more others) :
    Amounts world (.list (view :: views)) (answers ++ more) (portions ++ others)
  | dynamic {source : Source γ} {shown : View γ} {answers : List (View γ)} {portions : List Portion}
    (inside : Amounts world shown answers portions) : Amounts world (.dynamic source) (shown :: answers) portions
  | deferred {lazy : LazyId} {shown : View γ} {answers : List (View γ)} {portions : List Portion}
    (given : world.given lazy = some shown) (inside : Amounts world shown answers portions) :
    Amounts world (.deferred lazy) answers portions

variable {portions : List Portion} {before middle : Document γ Property}

theorem isFragment_extended {n : NodeId} (extended : Extended doc next) (solid : doc.isFragment n = false) :
    next.isFragment n = false := by
  have bound : n < doc.nodes.size := present_of_kind (by simpa [isFragment] using solid)
  rw [isFragment, Document.kind, extended.node?_eq n bound]
  exact solid

theorem Amounts.congr (solid : ∀ n, world.document.isFragment n = false → world'.document.isFragment n = false)
    (given : ∀ lazy view, world.given lazy = some view → world'.given lazy = some view)
    (amounts : Amounts world view answers portions) : Amounts world' view answers portions := by
  induction amounts with
  | empty => exact .empty
  | text data => exact .text data
  | node here => exact .node (solid _ here)
  | html markup => exact .html markup
  | nil => exact .nil
  | cons _ _ first rest => exact .cons first rest
  | dynamic _ ih => exact .dynamic ih
  | deferred here _ ih => exact .deferred (given _ _ here) ih

theorem Amounts.undisturbed (undisturbed : Undisturbed id world world') (amounts : Amounts world view answers portions) :
    Amounts world' view answers portions :=
  amounts.congr (fun _ => isFragment_extended undisturbed.document) undisturbed.given

theorem Issued.extended {lower : Nat} (issued : Issued doc floor portion item)
    (extended : Extended doc next) (below : lower ≤ floor) : Issued next lower portion item := by
  cases issued with
  | text data => exact .text data
  | node solid => exact .node (isFragment_extended extended solid)
  | tree shows =>
    refine .tree (shows.frame (fun m inner => extended.node?_eq m inner.2) fun m inner => ?_)
    exact ⟨below.trans inner.1, inner.2.trans_le extended.size_le⟩

theorem itemNodes_map_node (nodes : List NodeId) : itemNodes (nodes.map .node) = nodes := by
  induction nodes with
  | nil => rfl
  | cons _ _ ih => rw [map_cons, itemNodes_node, ih]

theorem issued_trees {nodes : List NodeId} {trees : List Tree} {mem : NodeId → Prop}
    (shows : doc.ShowsAll mem none trees nodes) (within : ∀ m, mem m → floor ≤ m ∧ m < doc.nodes.size) :
    Forall₂ (Issued doc floor) (trees.map .tree) (nodes.map .node) := by
  induction trees generalizing nodes mem with
  | nil =>
    obtain rfl : nodes = [] := shows
    exact .nil
  | cons _ _ ih =>
    obtain ⟨_, _, rfl, first, others⟩ := shows
    exact .cons (.tree (first.frame (fun _ _ => rfl) fun m inner => within m inner.1)) (ih others fun m inner => within m inner.1)

theorem Asked.amounts (asked : Asked host id fuel view state answers items final) :
    ∃ portions, Amounts final.outside view answers portions ∧
      Forall₂ (Issued final.outside.document state.outside.document.nodes.size) portions items := by
  induction asked with
  | empty => exact ⟨[], .empty, .nil⟩
  | text _ data => exact ⟨[.text data], .text data, .cons (.text data) .nil⟩
  | node _ solid => exact ⟨_, .node solid, .cons (.node solid) .nil⟩
  | nil => exact ⟨[], .nil, .nil⟩
  | @html _ markup state => exact ⟨_, .html markup, issued_trees (reading_shows id state.outside markup).2 fun _ inner => inner⟩
  | cons one two first rest =>
    obtain ⟨portions, amounts, issued⟩ := first
    obtain ⟨others, amounts', issued'⟩ := rest
    refine ⟨portions ++ others, .cons (amounts.undisturbed two.undisturbed) amounts', rel_append ?_ ?_⟩
    · exact issued.imp fun _ _ given => given.extended two.undisturbed.document (le_rfl)
    · exact issued'.imp fun _ _ given => given.extended (.refl _) one.undisturbed.document.size_le
  | dynamic _ quiet _ ih =>
    obtain ⟨portions, amounts, issued⟩ := ih
    exact ⟨portions, .dynamic amounts, issued.imp fun _ _ given => given.extended (.refl _) quiet.document.size_le⟩
  | deferred offers forced quiet mem ih =>
    obtain ⟨portions, amounts, issued⟩ := ih
    have given := mem.undisturbed.given _ _ (given_of_force offers forced quiet.lazies)
    exact ⟨portions, .deferred given amounts, issued.imp fun _ _ given => given.extended (.refl _) quiet.document.size_le⟩

/-- Items that were given when a view was asked again: their nodes were there the time before, or have been made since and are
told apart. -/
structure Anew (before doc next : Document γ Property) (portions : List Portion) (items : List Item) : Prop where
  issued : Forall₂ (Issued next doc.nodes.size) portions items
  origin : ∀ n ∈ itemNodes items, n < before.nodes.size ∨ doc.nodes.size ≤ n
  bound : ∀ n ∈ itemNodes items, n < next.nodes.size
  once : (madeNodes doc.nodes.size items).Nodup

theorem Anew.nil (before doc next : Document γ Property) : Anew before doc next [] [] :=
  ⟨.nil, by simp [itemNodes], by simp [itemNodes], by simp [madeNodes, itemNodes]⟩

theorem Anew.append {others : List Portion} {later : List Item} (old : before.nodes.size ≤ doc.nodes.size)
    (one : Anew before doc middle portions items) (two : Anew before middle next others later)
    (first : Extended doc middle) (second : Extended middle next) : Anew before doc next (portions ++ others) (items ++ later) where
  issued := rel_append (one.issued.imp fun _ _ issued => issued.extended second (Nat.le_refl _))
    (two.issued.imp fun _ _ issued => issued.extended (.refl next) first.size_le)
  origin n mem := by
    rw [itemNodes_append, mem_append] at mem
    exact mem.elim (one.origin n) fun mem => (two.origin n mem).imp_right (Nat.le_trans first.size_le)
  bound n mem := by
    rw [itemNodes_append, mem_append] at mem
    exact mem.elim (fun mem => Nat.lt_of_lt_of_le (one.bound n mem) second.size_le) (two.bound n)
  once := by
    have made : madeNodes doc.nodes.size later = madeNodes middle.nodes.size later := by
      refine filter_congr fun n mem => ?_
      have size := first.size_le
      rw [decide_eq_decide]
      rcases two.origin n mem with was | new
      · have small := Nat.lt_of_lt_of_le was old
        exact iff_of_false (Nat.not_le_of_lt small) (Nat.not_le_of_lt (Nat.lt_of_lt_of_le small size))
      · exact iff_of_true (Nat.le_trans size new) new
    have split : madeNodes doc.nodes.size (items ++ later) = madeNodes doc.nodes.size items ++ madeNodes doc.nodes.size later := by
      rw [madeNodes, itemNodes_append, filter_append]
      rfl
    rw [split, made]
    refine one.once.append two.once fun n early late => ?_
    have early := one.bound n (mem_filter.mp early).1
    have late := (mem_filter.mp late).2
    exact absurd early (Nat.not_lt_of_le (by simpa using late))

theorem Anew.earlier (old : before.nodes.size ≤ doc.nodes.size) (first : Extended doc middle)
    (second : Extended middle next) (anew : Anew before middle next portions items) : Anew before doc next portions items := by
  exact (Anew.nil before doc middle).append old anew first second

theorem Amounts.again (amounts : Amounts world view answers portions) {others : List (View γ)}
    (undisturbed : Undisturbed id world state.outside) (asked : Asked host id fuel view state others items final)
    (same : answers ++ rest = others ++ more) :
    answers = others ∧ Anew world.document state.outside.document final.outside.document portions items := by
  induction amounts generalizing fuel state others items final rest more with
  | empty | nil =>
    cases asked
    exact ⟨rfl, .nil _ _ _⟩
  | text data =>
    cases asked
    have none : itemNodes [Item.text data] = [] := rfl
    exact ⟨rfl, .cons (.text data) .nil, by simp [none], by simp [none], by simp [madeNodes, none]⟩
  | @node n solid =>
    cases asked with | node _ solid' =>
    have was : n < world.document.nodes.size := present_of_kind (by simpa [isFragment] using solid)
    have single : itemNodes [Item.node n] = [n] := rfl
    refine ⟨rfl, .cons (.node solid') .nil, fun m mem => ?_, fun m mem => ?_, (nodup_singleton n).filter _⟩
    · obtain rfl : m = n := by simpa [single] using mem
      exact .inl was
    · obtain rfl : m = n := by simpa [single] using mem
      exact was.trans_le undisturbed.document.size_le
  | html markup =>
    cases asked with | html _ _ complete =>
    have shows := (reading_shows id state.outside markup).2
    have nodes := itemNodes_map_node (state.outside.reading markup).1
    refine ⟨rfl, issued_trees shows fun _ inner => inner, fun m mem => ?_, fun m mem => ?_, ?_⟩
    · exact .inr (shows.inside m (nodes ▸ mem)).1
    · exact (shows.inside m (nodes ▸ mem)).2
    · rw [madeNodes, nodes]
      exact shows.once.filter _
  | cons _ _ first later =>
    cases asked with | cons one two =>
    rw [append_assoc, append_assoc] at same
    obtain ⟨rfl, front⟩ := first undisturbed one same
    obtain ⟨rfl, back⟩ := later (undisturbed.trans one.undisturbed) two (append_cancel_left same)
    exact ⟨rfl, front.append undisturbed.document.size_le back one.undisturbed.document two.undisturbed.document⟩
  | dynamic _ ih =>
    cases asked with | dynamic asked quiet mem =>
    rw [cons_append, cons_append] at same
    obtain ⟨rfl, behind⟩ := cons.inj same
    obtain ⟨rfl, anew⟩ := ih (undisturbed.trans quiet) mem behind
    exact ⟨rfl, anew.earlier undisturbed.document.size_le quiet.document mem.undisturbed.document⟩
  | deferred given _ ih =>
    cases asked with | deferred _ forced quiet mem =>
    rw [run_force_given _ (undisturbed.given _ _ given)] at forced
    obtain ⟨rfl, rfl⟩ := EStateM.Result.ok.inj forced
    exact ih undisturbed mem same

end Amounting

section Exhibiting

variable {answers : List (View γ)} {items others : List Item} {portions : List Portion} {doc next : Document γ Property}
  {region : Region} {left right : List NodeId} {floor fuel : Nat}

/-- An item for a portion, as it is while it is shown. -/
inductive Portrays (doc : Document γ Property) : Portion → Item → Prop where
  | text (data : String) : Portrays doc (.text data) (.text data)
  | node (n : NodeId) : Portrays doc (.node n) (.node n)
  | tree {tree : Tree} {m : NodeId} (carries : doc.Carries tree m) : Portrays doc (.tree tree) (.node m)

/-- A region shows a view with these answers of its getters: it stands between its siblings, and its nodes are those of items
for all that the view amounts to. -/
structure Exhibits (world : World γ τ) (id : RegionId) (view : View γ) (answers : List (View γ)) (left right : List NodeId)
    (region : Region) : Prop where
  found : world.regions[id]? = some ⟨region, none⟩
  standing : StandsBetween world.document region left right
  shows : ∃ portions items, Amounts world view answers portions ∧ Forall₂ (Portrays world.document) portions items ∧
    Forall₂ (ShowsItem world.document) (mergeItems items) region.current ∧
    ((mergeItems items).length ≠ 1 → region.start = none ∨ region.ending.isSome)

theorem Portrays.extended (portrays : Portrays doc portion item) (extended : Extended doc next) :
    Portrays next portion item := by
  cases portrays with
  | text data => exact .text data
  | node n => exact .node n
  | tree carries => exact .tree (carries.extended extended)

theorem retains_extended (extended : Extended doc next) : Retains doc next [] where
  size_le := extended.size_le
  node?_eq m bound := by
    rw [Document.data, parent?, children, extended.node?_eq m bound]
    cases doc.node? m <;> rfl
  data_eq m bound _ := by rw [Document.data, Document.data, extended.node?_eq m bound]

theorem Exhibits.undisturbed (undisturbed : Undisturbed id world world')
    (exhibits : Exhibits world id view answers left right region) : Exhibits world' id view answers left right region := by
  obtain ⟨portions, items, amounts, portrays, shows, settled⟩ := exhibits.shows
  have extended := undisturbed.document
  refine ⟨undisturbed.region_eq.trans exhibits.found, ⟨extended.lists exhibits.standing.lists, exhibits.standing.fixed,
    exhibits.standing.last⟩, portions, items, amounts.undisturbed undisturbed, ?_, ?_, settled⟩
  · exact portrays.imp fun _ _ here => here.extended extended
  · exact shows.imp fun _ _ here => here.kept (retains_extended extended) (by simp)

theorem standsIn_of_issued {other : Item} (portrays : Portrays doc portion item)
    (issued : Issued doc floor portion other) : StandsIn doc floor item other := by
  cases portrays with
  | text data =>
    cases issued
    exact .text data
  | node => cases issued with | node solid => exact .node solid
  | tree carries =>
    cases issued with | tree shows =>
    exact .tree carries shows.carries shows.inside.1 shows.parent?_eq

theorem standIns_of_issued (portrays : Forall₂ (Portrays doc) portions items)
    (issued : Forall₂ (Issued doc floor) portions others) : Forall₂ (StandsIn doc floor) items others := by
  induction portrays generalizing others with
  | nil =>
    cases issued
    exact .nil
  | cons first _ ih => cases issued with | cons given later => exact .cons (standsIn_of_issued first given) (ih later)

theorem portrays_of_issued (issued : Forall₂ (Issued doc floor) portions items)
    (kept : ∀ m, floor ≤ m → m < doc.nodes.size → Unaltered doc next m) : Forall₂ (Portrays next) portions items := by
  refine issued.imp fun portion item given => ?_
  cases given with
  | text data => exact .text data
  | node => exact .node _
  | tree shows => exact .tree (shows.carries_unaltered fun m inner => kept m inner.1 inner.2)

def Holds (doc : Document γ Property) (n : NodeId) (kind : Kind) (trees : List Tree) : Prop :=
  doc.kind n = kind ∧ doc.CarriesAll trees (doc.children n)

theorem Exhibits.renewed (exhibits : Exhibits world id view answers left right region)
    (undisturbed : Undisturbed id world state.outside) (asked : Asked host id fuel view state answers items final) :
    let shown := region.update (mergeItems items) final.outside.document
    Exhibits (final.outside.showing id shown) id view answers left right shown.1 ∧ shown.1.parent = region.parent ∧
      ∀ kind trees, Holds world.document region.parent kind trees → Holds shown.2 region.parent kind trees := by
  intro shown
  obtain ⟨portions, before, amounts, portrays, shows, settled⟩ := exhibits.shows
  obtain ⟨-, anew⟩ := amounts.again undisturbed asked (rfl : answers ++ [] = answers ++ [])
  have passed := undisturbed.trans asked.undisturbed
  have extended := passed.document
  have later := exhibits.undisturbed passed
  have same : final.outside.document.children region.parent = world.document.children region.parent :=
    later.standing.lists.children_eq.trans exhibits.standing.lists.children_eq.symm
  -- all that was there before is below the numbers of what is made now
  have floor := undisturbed.document.size_le
  have small : ∀ n ∈ final.outside.document.children region.parent, n < state.outside.document.nodes.size := by
    rw [later.standing.lists.children_eq]
    exact fun n mem => (lt_size_of_lists exhibits.standing.lists n mem).trans_le floor
  obtain ⟨_, there⟩ := Option.isSome_iff_exists.mp exhibits.standing.lists.present
  have parent := lt_size_of_node? there
  have standIns := standIns_mergeItems (standIns_of_issued (portrays.imp fun _ _ here => here.extended extended) anew.issued)
  have made : (madeNodes state.outside.document.nodes.size (mergeItems items)).Nodup := by
    rw [madeNodes, itemNodes_mergeItems]
    exact anew.once
  obtain ⟨fresh, next, result, relieved, refilled⟩ := later.standing.update_standIns settled
    (shows.imp fun _ _ here => here.kept (retains_extended extended) (by simp)) standIns small made
  have altered : ∀ m, m ≠ region.parent → Unaltered final.outside.document next m := fun m apart =>
    refilled.rearranged.unaltered (refilled.children_eq m apart)
  rw [show shown = ({ region with current := fresh }, next) from result]
  refine ⟨⟨World.regions_showing later.found _, later.standing.of_lists refilled.lists, portions, items, ?_, ?_, ?_, ?_⟩, rfl,
    fun kind trees holds => ?_⟩
  · have settled := amounts.undisturbed passed
    refine settled.congr (fun n solid => ?_) fun lazy view (given : final.outside.given lazy = some view) => given
    show (next.kind n == .fragment) = false
    rw [refilled.rearranged.kind_eq]
    exact solid
  · refine portrays_of_issued anew.issued fun m new _ => altered m fun here => ?_
    exact absurd ((here ▸ parent).trans_le floor) new.not_gt
  · exact relieved.shows.imp fun _ _ here => here.kept (retains_of_rearranged refilled.rearranged []) (by simp)
  · rwa [← standIns.length_eq]
  · have whole : final.outside.document.CarriesAll trees (final.outside.document.children region.parent) := by
      rw [same]
      exact holds.2.extended extended
    refine ⟨?_, refilled.carriesAll later.standing.around.children_eq whole relieved.same⟩
    rw [refilled.rearranged.kind_eq, (retains_extended extended).kind_eq _ parent]
    exact holds.1

/-- Items may be shown in a region: their nodes are told apart, stand neither beside it nor mark it, are no texts that the region
takes over for other items, and stand below no node that was made while the view was asked. -/
structure Admitted (doc : Document γ Property) (floor : Nat) (region : Region) (left right : List NodeId) (items : List Item) :
    Prop where
  once : (itemNodes items).Nodup
  inner : ∀ n ∈ itemNodes items, n ∉ left ∧ n ∉ region.start.toList ∧ n ∉ region.ending.toList ∧ n ∉ right
  untaken : ∀ n ∈ reusedTexts doc region.current (mergeItems items), n ∉ itemNodes items
  aloof : ∀ n ∈ itemNodes items, ∀ above, doc.parent? n = some above → above < floor

theorem solid_of_issued (issued : Forall₂ (Issued doc floor) portions items) :
    ∀ n ∈ itemNodes items, doc.kind n ≠ .fragment := by
  induction issued with
  | nil => simp [itemNodes]
  | cons first _ ih =>
    cases first with
    | text => exact ih
    | node solid =>
      refine forall_mem_cons.mpr ⟨?_, ih⟩
      simpa [isFragment] using solid
    | tree shows =>
      refine forall_mem_cons.mpr ⟨?_, ih⟩
      simpa [isFragment] using shows.carries.isFragment

theorem exhibits_shown (found : state.outside.regions[id]? = some ⟨region, none⟩)
    (standing : StandsBetween state.outside.document region left right)
    (asked : Asked host id fuel view state answers items final)
    (admitted : Admitted final.outside.document state.outside.document.nodes.size region left right items) :
    let shown := region.update (mergeItems items) final.outside.document
    Exhibits (final.outside.showing id shown) id view answers left right shown.1 ∧ shown.1.parent = region.parent := by
  intro shown
  obtain ⟨portions, amounts, issued⟩ := asked.amounts
  have extended := asked.undisturbed.document
  have standing' : StandsBetween final.outside.document region left right :=
    ⟨extended.lists standing.lists, standing.fixed, standing.last⟩
  have merged := itemNodes_mergeItems items
  have solid := solid_of_issued issued
  have placeable : Placeable final.outside.document region left right (mergeItems items) :=
    ⟨by rwa [merged], by rw [merged]; exact admitted.inner⟩
  have old : ∀ n ∈ region.current, n < state.outside.document.nodes.size := fun n mem =>
    lt_size_of_lists standing.around n (mem_append_right _ (mem_append_left _ mem))
  have readied : ∀ middle, Retains final.outside.document middle [] → region.current.Nodup →
      (∀ n ∈ region.current, n < middle.nodes.size) →
      Readied middle (Region.nodesFor region.current (mergeItems items) middle).2 region.current (mergeItems items)
        (Region.nodesFor region.current (mergeItems items) middle).1 := by
    intro middle kept distinct present
    have kinds : ∀ n ∈ region.current, middle.kind n = final.outside.document.kind n := fun n mem =>
      kept.kind_eq n ((old n mem).trans_le extended.size_le)
    refine readied_of_untaken distinct present (by rw [merged]; exact admitted.once) (fun n mem => ?_) ?_
    · rw [merged] at mem
      rw [kept.kind_eq n (present_of_kind (solid n mem))]
      exact solid n mem
    · rw [reusedTexts_congr kinds, merged]
      exact admitted.untaken
  have updated := standing'.update_readied placeable readied
  obtain ⟨_, there⟩ := Option.isSome_iff_exists.mp standing.lists.present
  have parent := lt_size_of_node? there
  refine ⟨⟨World.regions_showing (asked.undisturbed.region_eq.trans found) _, updated.standing, portions, items, ?_, ?_, updated.shows,
    (filled_update region (mergeItems items) final.outside.document).2⟩, by rw [updated.region_eq]⟩
  · refine amounts.congr (fun n solid => ?_) fun lazy view (given : final.outside.given lazy = some view) => given
    have kind := updated.kept.kind_eq n (present_of_kind (by simpa [isFragment] using solid))
    show (shown.2.kind n == .fragment) = false
    rw [kind]
    exact solid
  · refine portrays_of_issued issued fun m new bound => ?_
    have strange : m ∉ region.current := fun mem => absurd (old m mem) new.not_gt
    refine updated.unaltered standing' bound (fun here => ?_) strange fun n mem stands => ?_
    · exact absurd (here ▸ parent) new.not_gt
    · exact absurd (admitted.aloof n (merged ▸ mem) m stands) new.not_gt

end Exhibiting

section Rerunning

variable {fuel : Nat} {effect : OwnerId} {answers : List (View γ)} {items : List Item} {region : Region}
  {left right : List NodeId} {clean last : State (Procedure γ) (World γ τ) Datum}

def World.opened (world : World γ τ) : World γ τ := { world with frames := .fresh :: world.frames }

def World.closed (world : World γ τ) : World γ τ := { world with frames := world.frames.drop 1 }

theorem undisturbed_opened (id : RegionId) (world : World γ τ) : Undisturbed id world world.opened :=
  ⟨.refl _, rfl, fun _ _ given => given, le_rfl⟩

theorem undisturbed_closed (id : RegionId) (world : World γ τ) : Undisturbed id world world.closed :=
  ⟨.refl _, rfl, fun _ _ given => given, le_rfl⟩

theorem run_refresh (found : state.outside.regions[id]? = some ⟨region, none⟩)
    (asked : Asked host id fuel view { state with outside := state.outside.opened } answers items final)
    (lives : region.lives final.graph = true) :
    (refresh id view).run (Job.run (Procedure.meaning host) fuel) state = .ok ()
      { final with outside := final.outside.closed.showing id (region.update (mergeItems items) final.outside.document) } := by
  have taken : (takePending id).run (Job.run (Procedure.meaning host) fuel) state = .ok none state := by
    show EStateM.Result.ok ((state.outside.regions[id]?).bind Mounted.pending) { state with outside := state.outside.taken id } = _
    rw [found, World.taken_eq found]
    rfl
  have framed : (inFrame .fresh view.items).run (Job.run (Procedure.meaning host) fuel) state =
      .ok items { final with outside := final.outside.closed } := by
    have opens : (altering fun world : World γ τ => { world with frames := .fresh :: world.frames }).run
        (Job.run (Procedure.meaning host) fuel) state = .ok () { state with outside := state.outside.opened } := rfl
    rw [inFrame, run_then opens, run_then asked.run_items]
    rfl
  have kept : { final with outside := final.outside.closed }.outside.regions[id]? = some ⟨region, none⟩ :=
    asked.undisturbed.region_eq.trans found
  have shown := run_showItems (Job.run (Procedure.meaning host) fuel) kept (mergeItems items)
  rw [if_pos lives] at shown
  rw [refresh, run_then taken]
  exact (run_then framed fun items => showItems id (mergeItems items)).trans shown

def begun (effect : OwnerId) (state : State (Procedure γ) (World γ τ) Datum) : State (Procedure γ) (World γ τ) Datum where
  graph := { state.graph with owner := some effect, observer := some effect }
  outside := state.outside.opened
  history := .began effect :: state.history

/-- A reaction that shows a view in a region runs: what its last run has made is disposed, and then the view is asked. None of
this disturbs what is there. -/
structure Reasked (host : Host γ τ) (fuel : Nat) (effect : OwnerId) (id : RegionId) (view : View γ) (region : Region)
    (answers : List (View γ)) (items : List Item) (state clean last : State (Procedure γ) (World γ τ) Datum) : Prop where
  body_eq : (state.graph.owners.get? effect).bind Owner.body = some (.effect (.refresh id view))
  cleaned : Run.clean (Job.run (Procedure.meaning host) (fuel + 1)) effect state = .ok () clean
  quiet : Undisturbed id state.outside clean.outside
  asked : Asked host id fuel view (begun effect clean) answers items last
  lives : region.lives last.graph = true

def shownAfter (id : RegionId) (region : Region) (items : List Item) (clean last : State (Procedure γ) (World γ τ) Datum) :
    State (Procedure γ) (World γ τ) Datum where
  graph := { last.graph with owner := clean.graph.owner, observer := clean.graph.observer }
  outside := last.outside.closed.showing id (region.update (mergeItems items) last.outside.document)
  history := last.history

theorem Reasked.run (reasked : Reasked host fuel effect id view region answers items state clean last)
    (found : state.outside.regions[id]? = some ⟨region, none⟩) :
    Job.run (Procedure.meaning host) (fuel + 2) (.rerun effect) state = .ok () (shownAfter id region items clean last) := by
  have there : (begun effect clean).outside.regions[id]? = some ⟨region, none⟩ := reasked.quiet.region_eq.trans found
  have shown := @run_refresh _ _ _ _ _ { begun effect clean with outside := clean.outside } _ _ _ _ _ there reasked.asked
    reasked.lives
  exact rerun_effect (Job.run (Procedure.meaning host) (fuel + 1)) reasked.body_eq reasked.cleaned shown

/-- A region is shown anew any number of times, and each time its getters answer as they did before. What happens in between
leaves alone what is there. -/
inductive Repeats (host : Host γ τ) (effect : OwnerId) (id : RegionId) (view : View γ) (answers : List (View γ))
    (first : State (Procedure γ) (World γ τ) Datum) : State (Procedure γ) (World γ τ) Datum → Prop
  | nothing : Repeats host effect id view answers first first
  | meanwhile {state later} (earlier : Repeats host effect id view answers first state)
    (quiet : Undisturbed id state.outside later.outside) : Repeats host effect id view answers first later
  | rerun {fuel : Nat} {items : List Item} {region : Region} {state clean last later}
    (earlier : Repeats host effect id view answers first state) (found : state.outside.regions[id]? = some ⟨region, none⟩)
    (reasked : Reasked host fuel effect id view region answers items state clean last)
    (ran : Job.run (Procedure.meaning host) (fuel + 2) (.rerun effect) state = .ok () later) :
    Repeats host effect id view answers first later

theorem Exhibits.rerun (exhibits : Exhibits state.outside id view answers left right region)
    (reasked : Reasked host fuel effect id view region answers items state clean last) :
    ∃ again region', Job.run (Procedure.meaning host) (fuel + 2) (.rerun effect) state = .ok () again ∧
      Exhibits again.outside id view answers left right region' ∧ region'.parent = region.parent ∧
      ∀ kind trees, Holds state.outside.document region.parent kind trees → Holds again.outside.document region.parent kind trees := by
  obtain ⟨exhibits', parent, holds⟩ := exhibits.renewed (reasked.quiet.trans (undisturbed_opened id clean.outside)) reasked.asked
  exact ⟨_, _, reasked.run exhibits.found, exhibits'.undisturbed (undisturbed_closed id _), parent, holds⟩

theorem Repeats.exhibits {first : State (Procedure γ) (World γ τ) Datum} (repeats : Repeats host effect id view answers first state)
    (exhibits : Exhibits first.outside id view answers left right region) :
    ∃ region', Exhibits state.outside id view answers left right region' ∧ region'.parent = region.parent ∧
      ∀ kind trees, Holds first.outside.document region.parent kind trees → Holds state.outside.document region.parent kind trees := by
  induction repeats with
  | nothing => exact ⟨region, exhibits, rfl, fun _ _ holds => holds⟩
  | meanwhile _ quiet ih =>
    obtain ⟨region', exhibits', parent, holds⟩ := ih
    obtain ⟨_, there⟩ := Option.isSome_iff_exists.mp exhibits'.standing.lists.present
    have bound := lt_size_of_node? (parent ▸ there)
    refine ⟨region', exhibits'.undisturbed quiet, parent, fun kind trees before => ?_⟩
    obtain ⟨here, carries⟩ := holds kind trees before
    refine ⟨((retains_extended quiet.document).kind_eq _ bound).trans here, ?_⟩
    rw [children, quiet.document.node?_eq _ bound]
    exact carries.extended quiet.document
  | rerun _ found reasked ran ih =>
    obtain ⟨_, exhibits', parent, holds⟩ := ih
    obtain ⟨rfl, -⟩ := Mounted.mk.inj (Option.some.inj (exhibits'.found.symm.trans found))
    obtain ⟨_, shown, ran', exhibits'', parent', holds'⟩ := exhibits'.rerun reasked
    obtain rfl := (EStateM.Result.ok.inj (ran.symm.trans ran')).2
    rw [parent] at holds'
    exact ⟨shown, exhibits'', parent'.trans parent, fun kind trees before => holds' kind trees (holds kind trees before)⟩

/-- A reaction that shows a view in a region shows nothing new as long as the getters of the view answer as they did,
whatever else the view is made of and however the region came to show it. From the first time on every such run returns,
and the markup of what the parent holds stays what it was. Nodes of the view that are fragments are left out: showing
them once leaves them empty. -/
theorem reruns_show_nothing_new :
    (∀ state clean last fuel items region, state.outside.regions[id]? = some ⟨region, none⟩ →
      StandsBetween state.outside.document region left right →
      Reasked host fuel effect id view region answers items state clean last →
      Admitted last.outside.document clean.outside.document.nodes.size region left right items →
      ∃ first region', Job.run (Procedure.meaning host) (fuel + 2) (.rerun effect) state = .ok () first ∧
        Exhibits first.outside id view answers left right region' ∧ region'.parent = region.parent) ∧
    ∀ first later region, Exhibits first.outside id view answers left right region →
      Repeats host effect id view answers first later →
      (∀ trees, first.outside.document.CarriesAll trees (first.outside.document.children region.parent) →
        later.outside.document.inner region.parent = first.outside.document.inner region.parent) ∧
      ∃ shown, Exhibits later.outside id view answers left right shown ∧ ∀ fuel items clean last,
        Reasked host fuel effect id view shown answers items later clean last →
        ∃ again, Job.run (Procedure.meaning host) (fuel + 2) (.rerun effect) later = .ok () again ∧
          Repeats host effect id view answers first again := by
  refine ⟨fun state clean last fuel items region found standing reasked admitted => ?_,
    fun first later region exhibits repeats => ?_⟩
  · have quiet := reasked.quiet.trans (undisturbed_opened id clean.outside)
    have standing' : StandsBetween (begun effect clean).outside.document region left right :=
      ⟨quiet.document.lists standing.lists, standing.fixed, standing.last⟩
    have found' : (begun effect clean).outside.regions[id]? = some ⟨region, none⟩ := quiet.region_eq.trans found
    obtain ⟨exhibits, parent⟩ := exhibits_shown found' standing' reasked.asked admitted
    exact ⟨_, _, reasked.run found, exhibits.undisturbed (undisturbed_closed id _), parent⟩
  · obtain ⟨shown, exhibits', -, holds⟩ := repeats.exhibits exhibits
    refine ⟨fun trees carries => ?_, shown, exhibits', fun fuel items clean last reasked => ?_⟩
    · obtain ⟨kind, after⟩ := holds _ trees ⟨rfl, carries⟩
      exact inner_congr kind carries after
    · exact ⟨_, reasked.run exhibits'.found, repeats.rerun exhibits'.found reasked (reasked.run exhibits'.found)⟩

def codeless : Host Empty Unit where
  view code := code.elim
  attributeText code := code.elim
  datum code := code.elim
  act code := code.elim
  handle code _ := code.elim

def counterView (n : NodeId) : View Empty := .list [.dynamic (.cell 1), .node n]

/-- An empty paragraph with a region, an element that stands nowhere, and a reaction that shows a counter and the element in the
region. -/
def counterState : State (Procedure Empty) (World Empty Unit) Datum where
  graph := {
    cells := ⟨[(1, { value := some (.string "1") })]⟩
    owners := ⟨[(2, { parent := none, body := some (.effect (.refresh 0 (counterView 1))) })]⟩ }
  outside := {
    document := { nodes := #[{ kind := .element "p" false }, { kind := .element "b" false }] }
    regions := #[⟨{ parent := 0 }, none⟩], host := () }

theorem asked_counterView {state between : State (Procedure Empty) (World Empty Unit) Datum}
    (read : (call (.view (.cell 1))).run (Job.run (Procedure.meaning codeless) 1) state = .ok (.text "1") between)
    (same : between.outside = state.outside) (solid : state.outside.document.isFragment 1 = false) :
    Asked codeless 0 1 (counterView 1) state [.text "1"] [.text "1", .node 1] between := by
  have behind : Asked codeless 0 1 (.list [.node 1]) between [] [.node 1] between :=
    .cons (.node 1 (same ▸ solid)) (.nil 1 between)
  have quiet : Undisturbed 0 state.outside between.outside := same ▸ .refl _
  exact .cons (.dynamic read quiet (.text 0 "1" between)) behind

/-- The counter and the element come to stand in the paragraph, and stay when the counter is counted again. -/
theorem reruns_show_nothing_new_counter :
    ∃ first again, Job.run (Procedure.meaning codeless) 3 (.rerun 2) counterState = .ok () first ∧
      Job.run (Procedure.meaning codeless) 3 (.rerun 2) first = .ok () again ∧
      again.outside.document.inner 0 = first.outside.document.inner 0 := by
  have standing : StandsBetween counterState.outside.document { parent := 0 } [] [] :=
    ⟨⟨by decide, by decide, by decide, by decide⟩, by simp, by simp⟩
  have reasked : Reasked codeless 1 2 0 (counterView 1) { parent := 0 } [.text "1"] [.text "1", .node 1] counterState _ _ :=
    ⟨rfl, rfl, .refl _, asked_counterView rfl rfl rfl, rfl⟩
  obtain ⟨shows, stays⟩ := @reruns_show_nothing_new Empty Unit codeless 0 (counterView 1) 2 [.text "1"] [] []
  obtain ⟨first, region, ran, exhibits, parent⟩ := shows _ _ _ _ _ _ rfl standing reasked
    ⟨by decide, by decide, by decide, by decide⟩
  obtain rfl := (EStateM.Result.ok.inj ((reasked.run rfl).symm.trans ran)).2
  obtain ⟨-, shown, exhibits', returns⟩ := stays _ _ region exhibits .nothing
  obtain rfl := (Mounted.mk.inj (Option.some.inj exhibits'.found)).1
  obtain ⟨again, ran', repeats⟩ := returns 1 [.text "1", .node 1] _ _ ⟨rfl, rfl, .refl _, asked_counterView rfl rfl rfl, rfl⟩
  refine ⟨_, again, ran, ran', ?_⟩
  have unchanged := (stays _ again region exhibits repeats).1 [.text "1", .element "b" false [] []]
  rw [parent] at unchanged
  exact unchanged ⟨_, _, rfl, ⟨_, rfl, rfl, rfl, rfl, rfl⟩, _, _, rfl, ⟨_, rfl, rfl, rfl, rfl, rfl⟩, rfl⟩

/-- A getter of a cell and a fragment are inserted into the paragraph, and then the cell is given the value that it has. What the
paragraph holds is written down before and after. -/
def recount : LiveProgram Empty Unit (String × String) := do
  let cell ← Program.perform (.newSignal (.string "1"))
  let _ ← Program.underRoot (insert 0 (.list [.dynamic (.cell cell), .node 1]) none)
  let before ← seeDocument (·.inner 0)
  Program.perform (.write cell (.string "1"))
  return (before, ← seeDocument (·.inner 0))

/-- The element in the fragment is shown behind the counter. When the counter is counted again, to the same end, the fragment
has become empty, and the paragraph holds the text only. -/
theorem fragment_shown_once : let world : World Empty Unit := {
      document := { nodes := #[{ kind := .element "p" false }, { kind := .fragment, children := [2] },
        { kind := .element "b" false, parent := some 1 }] }
      host := () }
    (match run codeless recount { outside := world } with
      | .ok written _ => some written
      | .error .. => none) = some ("1<b></b>", "1") := by
  decide +kernel

end Rerunning

end LiveMarkup.Live
