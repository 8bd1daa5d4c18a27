import LiveMarkup.Proofs.RoundTrip

/-!
A view in markup and in a document. The markup of a view is read as the items that the view shows, node by node, whatever
its texts hold.
-/

namespace LiveMarkup.Markup.Tree

variable {trees : List Tree}

theorem areLegible_iff : areLegible trees = true ↔ ∀ tree ∈ trees, tree.isLegible = true := by
  induction trees with
  | nil => simp [areLegible]
  | cons _ _ ih => simp [areLegible, ih]

theorem apartAll_concat {tree : Tree} : ApartAll (trees ++ [tree]) ↔
    ApartAll trees ∧ tree.Apart ∧ (tree.isText = true → ∀ last ∈ trees.getLast?, last.isText = false) := by
  induction trees with
  | nil => simp [ApartAll]
  | cons first rest ih =>
    rw [List.cons_append, ApartAll, ApartAll, ih]
    cases rest with
    | nil => cases one : first.isText <;> cases other : tree.isText <;> simp [ApartAll, one, other]
    | cons =>
      simp only [List.cons_append, List.head?_cons, List.getLast?_cons_cons]
      tauto

end LiveMarkup.Markup.Tree

namespace LiveMarkup.Document
open Markup (Tree)

variable {η π : Type} {doc : Document η π} {tree : Tree} {n : NodeId}

theorem Carries.isFragment (carries : doc.Carries tree n) : doc.isFragment n = false := by
  cases tree <;>
  · obtain ⟨_, found, kind, _⟩ := carries
    simp [Document.isFragment, kind_of_node? found, kind]

theorem Carries.outer (carries : doc.Carries tree n) (notText : tree.isText = false) :
    doc.outer n = Tree.renderIn false tree := by
  have trees : doc.trees [n] = [tree] := CarriesAll.trees ⟨n, [], rfl, carries, rfl⟩
  rw [Document.outer, trees]
  cases tree with
  | text => simp [Tree.isText] at notText
  | comment | element => simp [Tree.renderIn.renderAll, Tree.renderIn]

end LiveMarkup.Document

namespace LiveMarkup.Live
open Document Markup Reactive List Program

section Items

variable (content : NodeId → Tree) {items : List Item}

def Item.tree : Item → Tree
  | .text data => .text data
  | .node n => content n

def Item.written : Item → String
  | .text data => Entity.escapeAll data
  | .node n => Tree.renderIn false (content n)

theorem mergeItems_concat (items : List Item) (item : Item) :
    mergeItems (items ++ [item]) = pushItem (mergeItems items) item := by
  simp [mergeItems]

theorem pushItem_cases (items : List Item) (item : Item) : (item = .text "" ∧ pushItem items item = items) ∨
    (∃ front last data, item = .text data ∧ data ≠ "" ∧ items = front ++ [.text last] ∧
      pushItem items item = front ++ [.text (last ++ data)]) ∨
    (item ≠ .text "" ∧ (∀ data, item = .text data → ∀ last, items.getLast? ≠ some (.text last)) ∧
      pushItem items item = items ++ [item]) := by
  cases item with
  | node => exact .inr (.inr ⟨by simp, by simp, rfl⟩)
  | text data =>
    by_cases empty : data = ""
    · exact .inl ⟨by rw [empty], by simp [pushItem, empty]⟩
    · cases last : items.getLast? with
      | none => exact .inr (.inr ⟨by simpa using empty, by simp, by simp [pushItem, empty, last]⟩)
      | some before =>
        cases before with
        | node => exact .inr (.inr ⟨by simpa using empty, by simp, by simp [pushItem, empty, last]⟩)
        | text before =>
          obtain ⟨front, rfl⟩ := getLast?_eq_some_iff.mp last
          exact .inr (.inl ⟨front, before, data, rfl, empty, rfl, by simp [pushItem, empty]⟩)

theorem written_mergeItems (items : List Item) :
    String.join ((mergeItems items).map (Item.written content)) = String.join (items.map (Item.written content)) := by
  induction items using reverseRecOn with
  | nil => rfl
  | append_singleton items item ih =>
    rw [mergeItems_concat, map_append, String.join_append, ← ih]
    rcases pushItem_cases (mergeItems items) item with ⟨rfl, same⟩ | ⟨front, last, data, rfl, _, before, after⟩ | ⟨_, _, after⟩
    · rw [same]
      simp [Item.written, Entity.escapeAll, Entity.escape]
    · rw [after, before]
      simp [Item.written, Entity.escapeAll, Entity.escape, String.append_assoc, String.ofList_append]
    · rw [after]
      simp

theorem node_mem_mergeItems {n : NodeId} : .node n ∈ mergeItems items ↔ .node n ∈ items := by
  induction items using reverseRecOn with
  | nil => rfl
  | append_singleton items item ih =>
    rw [mergeItems_concat, mem_append, ← ih]
    rcases pushItem_cases (mergeItems items) item with ⟨rfl, same⟩ | ⟨front, last, data, rfl, _, before, after⟩ | ⟨_, _, after⟩
    · simp [same]
    · rw [after, before]
      simp
    · simp [after]

theorem text_mem_mergeItems {data : String} (here : .text data ∈ mergeItems items) : data ≠ "" := by
  induction items using reverseRecOn with
  | nil => cases here
  | append_singleton items item ih =>
    rw [mergeItems_concat] at here
    rcases pushItem_cases (mergeItems items) item with ⟨_, same⟩ | ⟨front, last, more, _, some, before, after⟩ | ⟨some, _, after⟩
    · exact ih (same ▸ here)
    · rw [after, mem_append, mem_singleton] at here
      rcases here with early | joined
      · exact ih (by simp [before, early])
      · cases joined
        simp [some]
    · rw [after, mem_append, mem_singleton] at here
      rcases here with early | rfl
      · exact ih early
      · simpa using some

theorem apart_mergeItems (nodes : ∀ n, .node n ∈ items → (content n).isText = false ∧ (content n).Apart) :
    Tree.ApartAll ((mergeItems items).map (Item.tree content)) := by
  induction items using reverseRecOn with
  | nil => trivial
  | append_singleton items item ih =>
    have earlier := ih fun n here => nodes n (mem_append_left _ here)
    rw [mergeItems_concat]
    rcases pushItem_cases (mergeItems items) item with ⟨_, same⟩ | ⟨front, last, data, _, _, before, after⟩ | ⟨_, apart, after⟩
    · rwa [same]
    · rw [before, map_append, map_singleton, Tree.apartAll_concat] at earlier
      rw [after, map_append, map_singleton, Tree.apartAll_concat]
      exact earlier
    · rw [after, map_append, map_singleton, Tree.apartAll_concat]
      cases item with
      | node n =>
        obtain ⟨notText, within⟩ := nodes n (by simp)
        exact ⟨earlier, within, fun text => absurd text (by simp [Item.tree, notText])⟩
      | text data =>
        refine ⟨earlier, trivial, fun _ tree final => ?_⟩
        rw [getLast?_map, Option.mem_def, Option.map_eq_some_iff] at final
        obtain ⟨last, final, rfl⟩ := final
        cases last with
        | text before => exact absurd final (apart data rfl before)
        | node n =>
          have here : .node n ∈ mergeItems items := mem_of_getLast? final
          exact (nodes n (mem_append_left _ (node_mem_mergeItems.mp here))).1

theorem spelled_written (items : List Item) :
    Tree.SpelledAll (items.map (Item.tree content)) (String.join (items.map (Item.written content))).toList := by
  induction items with
  | nil => rfl
  | cons item _ ih =>
    refine ⟨(item.written content).toList, _, by simp, ?_, ih⟩
    cases item with
    | text => exact ⟨Entity.allMarks, Entity.escaping_allMarks, by decide, by simp [Item.written, Entity.escapeAll]⟩
    | node n => exact Tree.spelled_renderIn (content n)

end Items

section Views

variable {γ τ : Type}

/-- With `fuel` jobs inside each other, a view consists of items. What dynamic and lazy views give on the way is shown in
their place, and nodes hold their content when they are met. -/
inductive Unfolds (host : Host γ τ) (content : NodeId → Tree) :
    Nat → View γ → State (Procedure γ) (World γ τ) Datum → List Item → State (Procedure γ) (World γ τ) Datum → Prop
  | empty (fuel : Nat) (state) : Unfolds host content fuel .empty state [] state
  | text (fuel : Nat) (data : String) (state) : Unfolds host content fuel (.text data) state [.text data] state
  | node (fuel : Nat) {n : NodeId} {state} (carries : state.outside.document.Carries (content n) n) :
    Unfolds host content fuel (.node n) state [.node n] state
  | nil (fuel : Nat) (state) : Unfolds host content fuel (.list []) state [] state
  | cons {fuel : Nat} {view : View γ} {views : List (View γ)} {state between final} {items others : List Item}
    (first : Unfolds host content fuel view state items between)
    (rest : Unfolds host content fuel (.list views) between others final) :
    Unfolds host content fuel (.list (view :: views)) state (items ++ others) final
  | dynamic {fuel : Nat} {source : Source γ} {inner : View γ} {state between final} {items : List Item}
    (asked : (Program.call (.view source)).run (Job.run (Procedure.meaning host) (fuel + 1)) state = .ok inner between)
    (inside : Unfolds host content fuel inner between items final) :
    Unfolds host content (fuel + 1) (.dynamic source) state items final
  | deferred {fuel : Nat} {id : LazyId} {inner : View γ} {state between final} {items : List Item}
    (forced : (force id).run (Job.run (Procedure.meaning host) (fuel + 1)) state = .ok inner between)
    (inside : Unfolds host content fuel inner between items final) :
    Unfolds host content (fuel + 1) (.deferred id) state items final

variable {host : Host γ τ} {content : NodeId → Tree} {fuel : Nat} {view : View γ} {items : List Item}
  {state final : State (Procedure γ) (World γ τ) Datum}

theorem Unfolds.run_items (unfolds : Unfolds host content fuel view state items final) :
    view.items.run (Job.run (Procedure.meaning host) fuel) state = .ok items final := by
  induction unfolds with
  | empty => rfl
  | text => rfl
  | @node _ n state carries =>
    show EStateM.Result.ok (if state.outside.document.isFragment n then _ else _) state = _
    rw [carries.isFragment]
    rfl
  | nil => rfl
  | cons _ _ ihFirst ihRest =>
    rw [View.items] at ihRest
    rw [View.items, View.itemsOfAll, run_then ihFirst, run_then ihRest]
    rfl
  | dynamic asked _ ih =>
    rw [View.items, run_then asked]
    exact run_call ih
  | deferred forced _ ih =>
    rw [View.items, run_then forced]
    exact run_call ih

theorem Unfolds.run_markup (unfolds : Unfolds host content fuel view state items final)
    (notText : ∀ n, .node n ∈ items → (content n).isText = false) :
    view.markup.run (Job.run (Procedure.meaning host) fuel) state =
      .ok (String.join (items.map (Item.written content))) final := by
  induction unfolds with
  | empty => rfl
  | text => simp [View.markup, Item.written]; rfl
  | @node _ n state carries =>
    show EStateM.Result.ok (if state.outside.document.isFragment n then _ else _) state = _
    rw [carries.isFragment, if_neg (by simp), carries.outer (notText n (by simp))]
    simp [Item.written]
  | nil => rfl
  | cons _ _ ihFirst ihRest =>
    have later := ihRest fun n here => notText n (mem_append_right _ here)
    rw [View.markup] at later
    rw [View.markup, View.markupOfAll, run_then (ihFirst fun n here => notText n (mem_append_left _ here)),
      run_then later, map_append, String.join_append]
    rfl
  | dynamic asked _ ih =>
    rw [View.markup, run_then asked]
    exact run_call (ih notText)
  | deferred forced _ ih =>
    rw [View.markup, run_then forced]
    exact run_call (ih notText)

/-- Whether a node shows an item: a text with the same data, or a node that is the same. -/
def Item.ShownBy (doc : Document γ Property) : Item → NodeId → Prop
  | .text data, n => doc.Carries (.text data) n
  | .node m, n => doc.same n m = true

theorem shownBy_of_carriesAll {doc : Document γ Property} {nodes : List NodeId}
    (carries : doc.CarriesAll (items.map (Item.tree content)) nodes)
    (kept : ∀ n, .node n ∈ items → doc.Carries (content n) n) : Forall₂ (Item.ShownBy doc) items nodes := by
  induction items generalizing nodes with
  | nil =>
    obtain rfl : nodes = [] := carries
    exact .nil
  | cons item _ ih =>
    obtain ⟨n, _, rfl, first, others⟩ := carries
    refine .cons ?_ (ih others fun n here => kept n (mem_cons_of_mem _ here))
    cases item with
    | text => exact first
    | node m => exact first.same (kept m (by simp))

theorem durable_mergeItems (durable : ∀ n, .node n ∈ items → (content n).isText = false ∧ Tree.Durable [content n])
    (legible : ∀ data, .text data ∈ mergeItems items → ∀ c ∈ data.toList.head?, Text.isAscii c = true) :
    Tree.Durable ((mergeItems items).map (Item.tree content)) := by
  have node : ∀ n, .node n ∈ mergeItems items → Tree.Durable [content n] :=
    fun n here => (durable n (node_mem_mergeItems.mp here)).2
  refine ⟨Tree.expressibleAll_iff.mpr ?_, apart_mergeItems content fun n here => ?_, Tree.areLegible_iff.mpr ?_⟩
  · rintro _ mem
    obtain ⟨item, here, rfl⟩ := mem_map.mp mem
    cases item with
    | text => exact text_mem_mergeItems here
    | node n => exact (node n here).expressible.1
  · exact ⟨(durable n here).1, (durable n here).2.apart.1⟩
  · rintro _ mem
    obtain ⟨item, here, rfl⟩ := mem_map.mp mem
    cases item with
    | text data =>
      have first := legible data here
      show (data.toList.head?.map Text.isAscii).getD true = true
      cases head : data.toList.head? with
      | none => rfl
      | some c => exact first c head
    | node n => exact Tree.areLegible_iff.mp (node n here).legible _ (by simp [Item.tree])

/-- A view is read back from its markup as the items that it shows: a text for each text, and for each node one that is the
same. Nothing that stands in a text is taken for markup. -/
theorem view_markup_reads_as_items (unfolds : Unfolds host content fuel view state items final)
    (durable : ∀ n, .node n ∈ items → (content n).isText = false ∧ Tree.Durable [content n])
    (kept : ∀ n, .node n ∈ items → final.outside.document.Carries (content n) n)
    (legible : ∀ data, .text data ∈ mergeItems items → ∀ c ∈ data.toList.head?, Text.isAscii c = true) :
    view.items.run (Job.run (Procedure.meaning host) fuel) state = .ok items final ∧
      ∃ fragment read, (view.markup >>= readFragment).run (Job.run (Procedure.meaning host) fuel) state = .ok fragment read ∧
        Forall₂ (Item.ShownBy read.outside.document) (mergeItems items)
          (read.outside.document.children fragment) := by
  have written := unfolds.run_markup fun n here => (durable n here).1
  have spelled := spelled_written content (mergeItems items)
  rw [written_mergeItems] at spelled
  refine ⟨unfolds.run_items, ?_⟩
  rw [run_then written, readFragment, (durable_mergeItems durable legible).read spelled]
  obtain ⟨node, found, _, _, _, below⟩ :=
    carriesForest_ofTrees final.outside.document ((mergeItems items).map (Item.tree content))
  have extended := extended_ofTrees final.outside.document ((mergeItems items).map (Item.tree content))
  have shown := shownBy_of_carriesAll below fun n here => (kept n (node_mem_mergeItems.mp here)).extended extended
  rw [← children_of_node? found] at shown
  exact ⟨_, _, rfl, shown⟩

def greetingHost : Host String Unit where
  view := fun code => return .list [.text code, .empty]
  attributeText := fun _ => return none
  datum := fun _ => return .unit
  act := fun _ => return
  handle := fun _ _ => return

def emphasis : Tree := .element "em" false [("title", "\"<&")] [.text "c < d"]

/-- A state with the emphasis in its document, and with a lazy view. -/
def greetingState : State (Procedure String) (World String Unit) Datum :=
  { outside := {
      document := (ofTrees {} [emphasis]).2
      lazies := #[{ code := some "-->", owner := none }]
      host := () } }

def greeting : View String :=
  .list [.text "", .text "a", .dynamic (.code "<b>"), .node 1, .deferred 0, .text "&lt;"]

/-- The greeting is read back as a text, the emphasis and a text. -/
theorem view_markup_reads_as_items_greeting : ∃ items final,
    Unfolds greetingHost (fun _ => emphasis) 2 greeting greetingState items final ∧
      mergeItems items = [.text "a<b>", .node 1, .text "-->&lt;"] ∧
      ∃ fragment read, (greeting.markup >>= readFragment).run (Job.run (Procedure.meaning greetingHost) 2) greetingState =
          .ok fragment read ∧
        Forall₂ (Item.ShownBy read.outside.document) (mergeItems items)
          (read.outside.document.children fragment) := by
  have carries : (ofTrees ({} : Document String Property) [emphasis]).2.Carries emphasis 1 := by
    obtain ⟨node, found, _, _, _, below⟩ := carriesForest_ofTrees ({} : Document String Property) [emphasis]
    obtain rfl : { kind := .fragment, children := [1] } = node := Option.some.inj found
    obtain ⟨n, rest, only, carries, _⟩ := below
    cases only
    exact carries
  obtain ⟨final, same, unfolds⟩ : ∃ final, final.outside.document = greetingState.outside.document ∧
      Unfolds greetingHost (fun _ => emphasis) 2 greeting greetingState
        [.text "", .text "a", .text "<b>", .node 1, .text "-->", .text "&lt;"] final := by
    refine ⟨_, ?_, .cons (.text ..) <| .cons (.text ..) <|
      .cons (.dynamic rfl (.cons (.text ..) <| .cons (.empty ..) <| .nil ..)) <| .cons (.node _ carries) <|
      .cons (.deferred rfl (.cons (.text ..) <| .cons (.empty ..) <| .nil ..)) <| .cons (.text ..) <| .nil ..⟩
    rfl
  have merged : mergeItems [.text "", .text "a", .text "<b>", .node 1, .text "-->", .text "&lt;"] =
    [.text "a<b>", .node 1, .text "-->&lt;"] := by decide
  refine ⟨_, _, unfolds, merged, (view_markup_reads_as_items unfolds (fun _ _ => ?_) (fun n here => ?_) ?_).2⟩
  · decide +kernel
  · obtain rfl : n = 1 := by simpa using here
    rw [same]
    exact carries
  · rw [merged]
    intro data here c first
    simp only [mem_cons, Item.text.injEq, reduceCtorEq, not_mem_nil, or_false, false_or] at here
    rcases here with rfl | rfl <;>
    · cases first
      rfl

end Views

end LiveMarkup.Live
