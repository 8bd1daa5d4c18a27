import LiveMarkup.Proofs.RegionUpdates

/-!
Showing again what is shown. A region that is given the items it was given before leaves everything as it is: its text
nodes have the characters that are asked for, its marker has its end, and two equal runs of siblings are reconciled by
doing nothing.
-/

namespace LiveMarkup.Live
open Document Reactive List Region

variable {η π : Type} {doc next : Document η π} {n m : NodeId} {data : String}

theorem setData_eq_self (same : doc.data n = data) : doc.setData n data = doc := by
  have nodes : doc.nodes.modify n ({ · with data }) = doc.nodes := by
    apply Array.ext_getElem?
    intro i
    rw [Array.getElem?_modify]
    split
    · rename_i here
      subst here
      cases found : doc.nodes[n]? with
      | none => rfl
      | some node =>
        have held : node.data = data := by simpa [Document.data, Document.node?, found] using same
        subst held
        rfl
    · rfl
  simp only [setData, modifyNode, nodes]

theorem setData_setData (doc : Document η π) (n : NodeId) (first second : String) :
    (doc.setData n first).setData n second = doc.setData n second := by
  have nodes : (doc.nodes.modify n ({ · with data := first })).modify n ({ · with data := second }) =
      doc.nodes.modify n ({ · with data := second }) := by
    apply Array.ext_getElem?
    intro i
    by_cases here : n = i <;> simp [Array.getElem?_modify, here, Function.comp_def]
  simp only [setData, modifyNode, nodes]

theorem setData_comm (doc : Document η π) (apart : n ≠ m) (first second : String) :
    (doc.setData n first).setData m second = (doc.setData m second).setData n first := by
  have nodes : (doc.nodes.modify n ({ · with data := first })).modify m ({ · with data := second }) =
      (doc.nodes.modify m ({ · with data := second })).modify n ({ · with data := first }) := by
    apply Array.ext_getElem?
    intro i
    by_cases here : n = i
    · subst here
      simp [Array.getElem?_modify, apart.symm]
    · simp [Array.getElem?_modify, here]
  simp only [setData, modifyNode, nodes]

theorem kind_setData (doc : Document η π) (n m : NodeId) (data : String) : (doc.setData n data).kind m = doc.kind m := by
  by_cases same : n = m <;> cases found : doc.node? m <;> simp [kind, setData, same, found]

theorem data_setData_self (text : doc.isText n = true) (data : String) : (doc.setData n data).data n = data := by
  have kind : doc.kind n = .text := by simpa [isText] using text
  have bound : n < doc.nodes.size := present_of_kind (by simp [kind])
  obtain ⟨node, found⟩ : ∃ node, doc.node? n = some node := by simp [node?, bound]
  simp [Document.data, setData, found]

section Filling

def filledNodes (items : List Item) (nodes : List NodeId) : List NodeId :=
  (items.zip nodes).filterMap fun (item, n) =>
    match item with
    | .text _ => some n
    | .node _ => none

/-- Nodes stand for items once they have been filled one after the other. A text node that was filled more than once has
the characters that it got last. -/
inductive Filled (doc : Document η π) : List Item → List NodeId → Prop where
  | nil : Filled doc [] []
  | node {own : NodeId} {items : List Item} {nodes : List NodeId} : Filled doc items nodes →
      Filled doc (.node own :: items) (own :: nodes)
  | text {own : NodeId} {data : String} {items : List Item} {nodes : List NodeId} : doc.isText own = true →
      (own ∉ filledNodes items nodes → doc.data own = data) → Filled doc items nodes →
      Filled doc (.text data :: items) (own :: nodes)

variable {items : List Item} {nodes : List NodeId}

@[simp]
theorem filledNodes_node : filledNodes (.node n :: items) (m :: nodes) = filledNodes items nodes := rfl

@[simp]
theorem filledNodes_text : filledNodes (.text data :: items) (m :: nodes) = m :: filledNodes items nodes := rfl

theorem nodesFor_overwritten (filled : Filled doc items nodes) (mem : n ∈ filledNodes items nodes) (data : String)
    (kinds : ∀ m, next.kind m = doc.kind m) :
    nodesFor nodes items (next.setData n data) = nodesFor nodes items next := by
  induction filled generalizing next with
  | nil => cases mem
  | node _ ih => simp only [nodesFor, drop_one, tail_cons, ih mem kinds]
  | @text m _ items nodes _ _ _ ih =>
    have here : next.isText m = true := by rwa [isText, kinds]
    have there : (next.setData n data).isText m = true := by rwa [isText, kind_setData]
    simp only [nodesFor, head?_cons, here, there, if_true, drop_one, tail_cons]
    by_cases same : n = m
    · rw [same, setData_setData]
    · have behind : n ∈ filledNodes items nodes := by simpa [same] using mem
      rw [setData_comm next same, ih behind fun m => (kind_setData next _ m _).trans (kinds m)]

theorem nodesFor_eq_self (filled : Filled doc items nodes) : nodesFor nodes items doc = (nodes, doc) := by
  induction filled with
  | nil => rfl
  | node _ ih => simp only [nodesFor, drop_one, tail_cons, ih]
  | @text n data items nodes text last filled ih =>
    have same : nodesFor nodes items (doc.setData n data) = nodesFor nodes items doc := by
      by_cases again : n ∈ filledNodes items nodes
      · exact nodesFor_overwritten filled again data fun _ => rfl
      · rw [setData_eq_self (last again)]
    simp only [nodesFor, head?_cons, text, if_true, drop_one, tail_cons, same, ih]

theorem Filled.congr (filled : Filled doc items nodes) (kinds : ∀ m, next.kind m = doc.kind m)
    (datas : ∀ m, next.data m = doc.data m) : Filled next items nodes := by
  induction filled with
  | nil => exact .nil
  | node _ ih => exact .node ih
  | text _ last _ ih => exact .text (by rwa [isText, kinds]) (fun apart => (datas _).trans (last apart)) ih

theorem Filled.rearranged (filled : Filled doc items nodes) (rearranged : Rearranged doc next) : Filled next items nodes := by
  refine filled.congr (fun m => ?_) rearranged.data_eq
  rw [kind, rearranged.node?_eq, Option.map_map]
  rfl

theorem filled_nodesFor (current : List NodeId) (items : List Item) (doc : Document η π) :
    let ready := nodesFor current items doc
    Filled ready.2 items ready.1 ∧ doc.nodes.size ≤ ready.2.nodes.size ∧ (∀ m < doc.nodes.size, ready.2.kind m = doc.kind m) ∧
      ∀ m < doc.nodes.size, m ∉ filledNodes items ready.1 → ready.2.data m = doc.data m := by
  induction items generalizing current doc with
  | nil => exact ⟨.nil, le_rfl, fun _ _ => rfl, fun _ _ _ => rfl⟩
  | cons item items ih =>
    cases item with
    | node =>
      obtain ⟨filled, more, kinds, datas⟩ := ih (current.drop 1) doc
      exact ⟨.node filled, more, kinds, datas⟩
    | text data =>
      -- whichever node is taken, it is a text with these characters when its turn is over
      have finish : ∀ (middle : Document η π) (n : NodeId), middle.isText n = true → middle.data n = data →
          Patched doc middle [n] →
          let ready := nodesFor (current.drop 1) items middle
          Filled ready.2 (.text data :: items) (n :: ready.1) ∧ doc.nodes.size ≤ ready.2.nodes.size ∧
            (∀ m < doc.nodes.size, ready.2.kind m = doc.kind m) ∧
            ∀ m < doc.nodes.size, m ∉ filledNodes (.text data :: items) (n :: ready.1) → ready.2.data m = doc.data m := by
        intro middle n text held patched
        obtain ⟨filled, more, kinds, datas⟩ := ih (current.drop 1) middle
        have kind : middle.kind n = .text := by simpa [isText] using text
        have bound : n < middle.nodes.size := present_of_kind (by simp [kind])
        have stays : (nodesFor (current.drop 1) items middle).2.isText n = true := by rwa [isText, kinds n bound]
        refine ⟨.text stays (fun apart => (datas n bound apart).trans held) filled, patched.size_le.trans more,
          fun m old => ?_, fun m old apart => ?_⟩
        · exact (kinds m (old.trans_le patched.size_le)).trans (patched.kind_eq m old)
        · simp only [filledNodes_text, mem_cons, not_or] at apart
          have first := patched.data_eq m old (by simpa using apart.1)
          exact (datas m (old.trans_le patched.size_le) apart.2).trans first
      have made := finish (doc.createText data).2 doc.nodes.size (by simp [isText, createText, kind, node?_create])
        (by simp [createText, Document.data, node?_create]) ((patched_create doc .text data).widen (by simp))
      cases current with
      | nil => exact made
      | cons old =>
        by_cases text : doc.isText old = true
        · have kept := finish (doc.setData old data) old (by rwa [isText, kind_setData]) (data_setData_self text data)
            (patched_setData doc old data)
          simpa only [nodesFor, head?_cons, text, if_true] using kept
        · simp only [nodesFor, head?_cons, text]
          exact made

theorem Filled.length_eq (filled : Filled doc items nodes) : nodes.length = items.length := by
  induction filled with
  | nil => rfl
  | node _ ih | text _ _ _ ih => simp [ih]

end Filling

section Again

variable {region : Region} {items : List Item}

theorem reconcile_eq_self (parent : NodeId) (nodes : List NodeId) (after : Option NodeId) (doc : Document η π) :
    reconcile parent nodes nodes after doc = doc := by
  have runs : ∀ (runs : Runs), runs.old = runs.new → Runs.reconcile parent after runs doc = doc := by
    rintro ⟨old, _, oldStart, newStart, previous, _, _⟩ (rfl : old = _)
    induction old generalizing oldStart newStart previous with
    | nil =>
      rw [Runs.reconcile]
      rfl
    | cons _ _ ih =>
      rw [Runs.reconcile]
      simpa using ih _ _ _
  exact runs _ rfl

theorem ensureEnding_eq_self {region : Region} (settled : region.start = none ∨ region.ending.isSome) (doc : Document η π) :
    region.ensureEnding doc = (region, doc) := by
  have done : (region.start.isNone || region.ending.isSome) = true := by simpa using settled
  rw [ensureEnding, if_pos done]

theorem settled_ensureEnding (region : Region) (doc : Document η π) :
    (region.ensureEnding doc).1.start = none ∨ (region.ensureEnding doc).1.ending.isSome := by
  rw [ensureEnding]
  split
  · rename_i done
    simpa using done
  · exact .inr rfl

theorem rearranged_replace (region : Region) (nodes : List NodeId) (doc : Document η π) :
    Rearranged doc (region.replace nodes doc).2 :=
  (rearranged_insertAll doc region.parent nodes _).trans (rearranged_removeAll _ _)

theorem update_eq_self (filled : Filled doc items region.current)
    (settled : items.length ≠ 1 → region.start = none ∨ region.ending.isSome) : region.update items doc = (region, doc) := by
  have as_many := filled.length_eq
  match items with
  | [] =>
    have empty : region.current = [] := length_eq_zero_iff.mp as_many
    have same : { region with current := [] } = region := by rw [← empty]
    rw [update, ensureEnding_eq_self (settled (by simp))]
    dsimp only
    rw [same, empty]
    rfl
  | [.node n] =>
    have single : region.current = [n] := by
      generalize region.current = nodes at filled
      cases filled with | node rest => cases rest; rfl
    rw [update, if_pos single]
  | [.text data] =>
    obtain ⟨n, single, text, held⟩ : ∃ n, region.current = [n] ∧ doc.isText n = true ∧ doc.data n = data := by
      generalize region.current = nodes at filled
      cases filled with | text text last rest => cases rest; exact ⟨_, rfl, text, last (by simp [filledNodes])⟩
    simp only [update, single, text, if_true, setData_eq_self held]
  | first :: second :: rest =>
    have long : ¬ region.current.length ≤ 1 := by simp [as_many]
    rw [update_several (by simp), ensureEnding_eq_self (settled (by simp))]
    simp only [nodesFor_eq_self filled, if_neg long, reconcile_eq_self]

theorem filled_update (region : Region) (items : List Item) (doc : Document η π) : let shown := region.update items doc
    Filled shown.2 items shown.1.current ∧ (items.length ≠ 1 → shown.1.start = none ∨ shown.1.ending.isSome) := by
  match items with
  | [] => exact ⟨.nil, fun _ => settled_ensureEnding region doc⟩
  | [.node n] =>
    refine ⟨?_, fun several => absurd rfl several⟩
    by_cases single : region.current = [n]
    · simpa only [update, single, if_true] using .node .nil
    · simpa only [update, single, if_false] using .node .nil
  | [.text data] =>
    refine ⟨?_, fun several => absurd rfl several⟩
    have fresh : Filled (region.replace [doc.nodes.size] (doc.createText data).2).2 [.text data] [doc.nodes.size] := by
      have made : Filled (doc.createText data).2 [.text data] [doc.nodes.size] :=
        .text (by simp [isText, createText, kind, node?_create])
          (fun _ => by simp [createText, Document.data, node?_create]) .nil
      exact made.rearranged (rearranged_replace region _ _)
    by_cases patched : ∃ n, region.current = [n] ∧ doc.isText n = true
    · obtain ⟨_, single, text⟩ := patched
      simp only [update, single, text, if_true]
      exact .text (by rwa [isText, kind_setData]) (fun _ => data_setData_self text data) .nil
    · rw [update_text_fresh patched]
      exact fresh
  | first :: second :: rest =>
    have ready := (filled_nodesFor (region.ensureEnding doc).1.current (first :: second :: rest) (region.ensureEnding doc).2).1
    have settled := settled_ensureEnding region doc
    rw [update_several (by simp)]
    dsimp only
    split
    · exact ⟨ready.rearranged (rearranged_replace _ _ _), fun _ => settled⟩
    · exact ⟨ready.rearranged (rearranged_reconcile _ _ _ _ _), fun _ => settled⟩

theorem update_again (region : Region) (items : List Item) (doc : Document η π) : let shown := region.update items doc
    let again := shown.1.update items shown.2
    again = shown ∧ again.1.current = shown.1.current ∧ again.2.changes.since shown.2.changes = {} := by
  intro shown again
  obtain ⟨filled, settled⟩ := filled_update region items doc
  have same : again = shown := update_eq_self filled settled
  exact ⟨same, by rw [same], by simp [same, Changes.since]⟩

end Again

section Programs

variable {γ τ : Type} {state : State (Procedure γ) (World γ τ) Datum} {id : RegionId}

theorem run_showItems_unmounted (self : Runner (Procedure γ) (World γ τ) Datum) (items : List Item)
    (missing : state.outside.regions[id]? = none) : (showItems id items).run self state = .ok () state := by
  have asked : (regionLives id).run self state = .ok true state := by
    show (stillOwned ((state.outside.regions[id]?).bind (·.region.owner))).run self state = _
    rw [missing]
    rfl
  rw [showItems, Program.run_then asked]
  show EStateM.Result.ok () { state with outside := _ } = _
  dsimp only
  rw [missing]

theorem owner_update (region : Region) (items : List Item) (doc : Document η π) :
    (region.update items doc).1.owner = region.owner := by
  have ended : (region.ensureEnding doc).1.owner = region.owner := by
    rw [ensureEnding]
    split <;> rfl
  rcases items with _ | ⟨first, _ | ⟨second, rest⟩⟩
  · exact ended
  · cases first with
    | node =>
      rw [update]
      split <;> rfl
    | text =>
      simp only [update]
      split
      · split <;> rfl
      · rfl
  · rw [update_several (by simp)]
    dsimp only
    split <;> exact ended

/-- Showing items a second time is free: nothing is made, put anywhere or taken away, and every region shows the very nodes
that it showed, in the very same document. A region whose owner is gone was not changed the first time either. -/
theorem showing_again_is_free (self : Runner (Procedure γ) (World γ τ) Datum)
    (state : State (Procedure γ) (World γ τ) Datum) (id : RegionId) (items : List Item) :
    ∃ shown, (showItems id items).run self state = .ok () shown ∧ (showItems id items).run self shown = .ok () shown ∧
      ∀ mounted, state.outside.regions[id]? = some mounted →
        let once := mounted.region.update items state.outside.document
        let twice := once.1.update items once.2
        twice = once ∧ twice.2.changes.since once.2.changes = {} ∧
          shown.outside = if mounted.region.lives state.graph = true then state.outside.showing id once else state.outside := by
  cases found : state.outside.regions[id]? with
  | none =>
    have idle := run_showItems_unmounted self items found
    exact ⟨state, idle, idle, fun _ absent => by cases absent⟩
  | some mounted =>
    obtain ⟨twice, -, none⟩ := update_again mounted.region items state.outside.document
    have first := run_showItems self found items
    by_cases lives : mounted.region.lives state.graph = true
    · rw [if_pos lives] at first
      refine ⟨_, first, ?_, fun _ same => ?_⟩
      · have lives' : (mounted.region.update items state.outside.document).1.lives state.graph = true := by
          rwa [Region.lives, owner_update]
        generalize mounted.region.update items state.outside.document = once at twice lives'
        have held : { state with outside := state.outside.showing id once }.outside.regions[id]? =
            some { mounted with region := once.1 } := World.regions_showing found once
        have later := run_showItems self held items
        rw [if_pos lives'] at later
        refine later.trans ?_
        have same : (state.outside.showing id once).showing id (once.1.update items once.2) = state.outside.showing id once := by
          rw [twice, World.showing_showing]
        exact congrArg (EStateM.Result.ok () { state with outside := · }) same
      · obtain rfl := Option.some.inj same
        exact ⟨twice, none, by rw [if_pos lives]⟩
    · rw [if_neg lives] at first
      refine ⟨state, first, first, fun _ same => ?_⟩
      obtain rfl := Option.some.inj same
      exact ⟨twice, none, by rw [if_neg lives]⟩

end Programs

end LiveMarkup.Live
