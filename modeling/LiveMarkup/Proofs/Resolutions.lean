import LiveMarkup.Proofs.RegionUpdates
import LiveMarkup.Proofs.Rendering
import LiveMarkup.Proofs.Lifetimes

/-!
What a view of elements, texts, lists and getters shows while its getters only read. The items are given by the values of
the cells, and the run that asks for them reads every cell they depend on.
-/

namespace LiveMarkup.Live
open Document Reactive List

variable {γ τ : Type} {host : Host γ τ} {holds : World γ τ → Prop} {values other : CellId → Datum}

section Resolving

variable (host holds values)

/-- With the given values of cells, a view shows the listed items and has read the listed cells. Its getters only read,
and give views of the same kind. -/
inductive Resolves : View γ → List Item → List CellId → Prop where
  | empty : Resolves .empty [] []
  | text (data : String) : Resolves (.text data) [.text data] []
  | node (n : NodeId) (solid : ∀ world, holds world → world.document.isFragment n = false) : Resolves (.node n) [.node n] []
  | nil : Resolves (.list []) [] []
  | cons {view : View γ} {rest : List (View γ)} {items more : List Item} {cells later : List CellId}
      (first : Resolves view items cells) (others : Resolves (.list rest) more later) :
      Resolves (.list (view :: rest)) (items ++ more) (cells ++ later)
  | dynamic {source : Source γ} {shown : View γ} {items : List Item} {read cells : List CellId}
      (reads : Reads (Procedure.meaning host) holds values (Procedure.meaning host (.view source)) shown read)
      (inner : Resolves shown items cells) : Resolves (.dynamic source) items (read ++ cells)

end Resolving

namespace Resolves

variable {view : View γ} {items : List Item} {cells : List CellId}

theorem reads (resolves : Resolves host holds values view items cells) :
    Reads (Procedure.meaning host) holds values view.items items cells := by
  induction resolves with
  | empty => exact .done _
  | text => exact .done _
  | node _ solid =>
    refine .look _ (fun world steady => ?_) (.done _)
    simp [solid world steady]
  | nil => exact .done _
  | @cons _ rest items more _ later _ _ one two =>
    have others : Reads (Procedure.meaning host) holds values (View.itemsOfAll rest >>= fun later => pure (items ++ later))
        (items ++ more) (later ++ []) := two.bind (.done _)
    rw [append_nil] at others
    exact one.bind others
  | @dynamic _ shown items _ cells reads _ ih =>
    have inner : Reads (Procedure.meaning host) holds values (Program.call (.items shown)) items (cells ++ []) :=
      .call ih (.done items)
    rw [append_nil] at inner
    exact .call reads inner

theorem congr (resolves : Resolves host holds values view items cells) (same : ∀ c ∈ cells, other c = values c) :
    Resolves host holds other view items cells := by
  induction resolves with
  | empty => exact .empty
  | text data => exact .text data
  | node n solid => exact .node n solid
  | nil => exact .nil
  | cons _ _ one two =>
    exact .cons (one fun c mem => same c (mem_append_left _ mem))
      (two fun c mem => same c (mem_append_right _ mem))
  | dynamic reads _ ih =>
    exact .dynamic (reads.congr fun c mem => same c (mem_append_left _ mem))
      (ih fun c mem => same c (mem_append_right _ mem))

theorem unread (resolves : Resolves host holds values view items cells) (still : view.isReactive = false) : cells = [] := by
  induction resolves with
  | empty | text _ | node _ _ | nil => rfl
  | cons _ _ one two =>
    simp only [View.isReactive, View.isReactive.anyReactive, Bool.or_eq_false_iff] at still
    rw [one still.1, two still.2, append_nil]
  | dynamic => simp [View.isReactive] at still

end Resolves

theorem itemNodes_append (items more : List Item) : itemNodes (items ++ more) = itemNodes items ++ itemNodes more :=
  filterMap_append ..

theorem itemNodes_mergeItems (items : List Item) : itemNodes (mergeItems items) = itemNodes items := by
  induction items using reverseRecOn with
  | nil => rfl
  | append_singleton items item ih =>
    rw [mergeItems_concat, itemNodes_append, ← ih]
    rcases pushItem_cases (mergeItems items) item with ⟨rfl, same⟩ | ⟨front, last, data, rfl, _, before, after⟩ | ⟨_, _, after⟩
    · simp [same, itemNodes, Item.node?]
    · rw [after, before, itemNodes_append, itemNodes_append]
      simp only [itemNodes, filterMap_cons, Item.node?, filterMap_nil, append_nil]
    · rw [after, itemNodes_append]

end LiveMarkup.Live
