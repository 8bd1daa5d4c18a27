import LiveMarkup.Proofs.Rounds

/-!
Glitch freedom: after a batch of writes every reaction of a network runs at most once, in the order in which the
reactions were made, and reads only what is up to date.
-/

namespace LiveMarkup.Reactive
open Program Table Function Net

variable {ν : Type} {net : Net ν} {graph : Graph (Task ν) ν} {log : Log ν} {i level : Nat}

section Making

variable {batches : List (List (Nat × ν))} {base : Graph (Task ν) ν}

structure Growing (net : Net ν) (signals : Nat → ν) (root : OwnerId) (graph : Graph (Task ν) ν) (log : Log ν) : Prop where
  settled : Settled net signals (some root) graph log
  root_old : root < graph.nextId
  root_lt : ∀ i < net.defs.length, root < net.handle i

variable {signals : Nat → ν} {root : OwnerId} {d : Definition ν} {handle : Nat} {next : Graph (Task ν) ν} {later : Log ν}

section

variable (growing : Growing net signals root graph log)
include growing

theorem Growing.join (ordered : Scoped (net.defs ++ [d])) (new : graph.nextId ≤ handle)
    (laid : Laid (net.add d handle) (sourcesIn later) next)
    (kept : ∀ c < graph.nextId, next.valueOf c = graph.valueOf c) (value : d.holds = true → next.valueOf handle = some
      (d.refresh net.defs.length (recompute net.defs signals) net.defs.length))
    (unseen : ∀ i < net.defs.length, lastSeen i later = lastSeen i log)
    (seen : d.reacts = true → lastSeen net.defs.length later = some (d.seen (recompute net.defs signals)))
    (rest : AtRest next (some root)) (nextId : graph.nextId ≤ next.nextId) :
    Growing (net.add d handle) signals root next later := by
  have settled := growing.settled
  have same := settled.laid.length_eq
  have values : recompute (net.add d handle).defs signals = d.refresh net.defs.length (recompute net.defs signals) :=
    recompute_append_singleton net.defs d signals
  -- what is read is older than the new definition
  have reads : ∀ (i : Nat) (e : Definition ν), (net.add d handle).defs[i]? = some e → e.seen (recompute (net.add d handle).defs signals) =
      e.seen (recompute net.defs signals) := by
    intro i e found
    refine Definition.seen_congr fun entry read => ?_
    have before := ((ordered i e found).allows read).1
    have mem := (List.getElem?_eq_some_iff.mp found).1
    rw [values, Definition.refresh_of_ne (by rcases lt_or_eq_of_add mem with less | rfl <;> omega)]
  refine ⟨⟨laid, ?_, ?_, rest⟩, growing.root_old.trans_le nextId, ?_⟩
  · intro i holds
    rcases lt_or_eq_of_add holds.lt with less | rfl
    · have old : net.handle i < graph.nextId := handle_le_reactor.trans_lt (settled.laid.bound less)
      rw [handle_add same less, kept _ old, values, Definition.refresh_of_ne less.ne]
      exact settled.stored i ((holds_add less).mp holds)
    · obtain ⟨e, found, holding⟩ := holds
      obtain rfl : d = e := by simpa [defs_add_last] using found
      rw [handle_add_last same, values]
      exact value holding
  · intro i e found acts
    rw [reads i e found]
    rcases lt_or_eq_of_add (List.getElem?_eq_some_iff.mp found).1 with less | rfl
    · rw [unseen i less]
      exact settled.seen i e (by rwa [defs_add less] at found) acts
    · obtain rfl : d = e := by simpa [defs_add_last] using found
      exact seen acts
  · intro i mem
    rcases lt_or_eq_of_add mem with less | rfl
    · rw [handle_add same less]
      exact growing.root_lt i less
    · rw [handle_add_last same]
      exact growing.root_old.trans_le new

theorem Growing.reactor_ne (acts : net.Reacts i) : net.reactor i ≠ root :=
  ((growing.root_lt i acts.lt).trans_le handle_le_reactor).ne'

theorem Growing.newCell (value : Option ν) : (graph.newCell value).2.cells.get? graph.nextId = some { value } ∧
      (∀ c < graph.nextId, (graph.newCell value).2.cells.get? c = graph.cells.get? c) ∧
      (∀ i, net.Reacts i → (graph.newCell value).2.owners.get? (net.reactor i) = graph.owners.get? (net.reactor i)) ∧
      AtRest (graph.newCell value).2 (some root) := by
  have rest := growing.settled.rest
  have made : (graph.newCell value).2 = { graph with
      nextId := graph.nextId + 1
      cells := graph.cells.insert graph.nextId { value }
      owners := graph.owners.modify root fun o => { o with cells := o.cells ++ [graph.nextId] } } := by
    rw [Graph.newCell, rest.owner_eq]
  rw [made]
  refine ⟨?_, ?_, ?_, { rest with }⟩
  · rw [get?_insert, if_pos rfl]
  · intro c old
    rw [get?_insert, if_neg old.ne]
  · intro k acts
    rw [get?_modify, if_neg (growing.reactor_ne acts)]

theorem Growing.begun {body : Body (Task ν) ν} (new : graph.nextId ≤ handle)
    (place : (net.add d handle).reactor net.defs.length = base.nextId)
    (what : (net.add d handle).body net.defs.length = some body)
    (cells : ∀ c < graph.nextId, base.cells.get? c = graph.cells.get? c)
    (owners : ∀ i, net.Reacts i → base.owners.get? (net.reactor i) = graph.owners.get? (net.reactor i))
    (slot : d.holds = true → ∃ slot, base.cells.get? handle = some slot ∧ slot.inUse = false ∧ slot.subscribers = []) :
    Laid (net.add d handle) (update (sourcesIn log) net.defs.length []) (base.begun (some root) body) := by
  have laid := growing.settled.laid
  have above : graph.nextId ≤ base.nextId := by
    rw [← place]
    refine new.trans ?_
    have least : (net.add d handle).handle net.defs.length ≤ _ := handle_le_reactor
    rwa [handle_add_last laid.length_eq] at least
  refine laid.add new ?_ cells ?_ slot ?_
  · rw [place]
    exact Nat.lt_succ_self _
  · intro k acts
    show (modify _ _ _).get? _ = _
    have old := (laid.bound acts.lt).trans_le above
    rw [get?_modify, if_neg (growing.reactor_ne acts), get?_insert, if_neg old.ne, owners k acts]
  · intro _
    rw [place, what]
    show ∃ parent, (modify _ _ _).get? _ = _
    have apart := (growing.root_old.trans_le above).ne'
    rw [get?_modify, if_neg apart, get?_insert, if_pos rfl]
    exact ⟨_, rfl⟩

theorem Growing.held (cells : ∀ c < graph.nextId, base.cells.get? c = graph.cells.get? c) :
    ∀ j < net.defs.length, (net.add d handle).Holds j →
      base.valueOf ((net.add d handle).handle j) = some (recompute net.defs signals j) := by
  intro j before holds
  have laid := growing.settled.laid
  have old : net.handle j < graph.nextId := handle_le_reactor.trans_lt (laid.bound before)
  rw [handle_add laid.length_eq before, Graph.valueOf, cells _ old]
  exact growing.settled.stored j ((holds_add before).mp holds)

end

variable [BEq ν]

section

variable (growing : Growing net signals root graph log)
include growing

theorem ensures_create_signal {value : ν} (ordered : Scoped (net.defs ++ [.signal value]))
    (given : signals net.defs.length = value) :
    (perform (.newSignal value)).Ensures Task.meaning level graph log
      fun handle graph' log' => Growing (net.add (.signal value) handle) signals root graph' log' := by
  have settled := growing.settled
  obtain ⟨made, cells, owners, rest⟩ := growing.newCell (some value)
  have last : (net.add (.signal value) graph.nextId).defs[net.defs.length]? = some (.signal value) := defs_add_last
  have bound : (net.add (.signal value) graph.nextId).reactor net.defs.length < (graph.newCell (some value)).2.nextId := by
    rw [reactor, last, handle_add_last settled.laid.length_eq]
    exact Nat.lt_succ_self _
  have laid : Laid (net.add (.signal value) graph.nextId) (update (sourcesIn log) net.defs.length [])
      (graph.newCell (some value)).2 :=
    settled.laid.add (le_rfl) bound cells owners (fun _ => ⟨_, made, rfl, rfl⟩)
      (fun acts => by cases acts)
  refine ensures_perform fun _ history _ => ⟨_, _, _, history, rfl, ?_⟩
  refine growing.join ordered (le_rfl) (laid.congr_reads ?_) ?_ ?_ (fun _ _ => rfl) (fun acts => by cases acts) rest
    (Nat.le_succ _)
  · rintro _ ⟨_, found, acts⟩
    rw [update_of_ne]
    rintro rfl
    rw [last] at found
    cases found
    cases acts
  · intro c old
    show ((graph.newCell (some value)).2.cells.get? c).bind _ = _
    rw [cells c old]
    rfl
  · intro _
    show ((graph.newCell (some value)).2.cells.get? graph.nextId).bind _ =
      some (recompute net.defs signals net.defs.length)
    rw [made, recompute_above (le_rfl), given]
    rfl

theorem ensures_create_effect {f : Reader ν Unit} (ordered : Scoped (net.defs ++ [.effect f])) :
    (perform (.newEffect ⟨net.handles.length, net.handles, f⟩)).Ensures Task.meaning 2 graph log
      fun handle graph' log' => Growing (net.add (.effect f) handle) signals root graph' log' := by
  have settled := growing.settled
  have same := settled.laid.length_eq
  have last : (net.add (.effect f) graph.nextId).defs[net.defs.length]? = some (.effect f) := defs_add_last
  have place : (net.add (.effect f) graph.nextId).reactor net.defs.length = graph.nextId := by
    rw [reactor, last, handle_add_last same]
  have what : (net.add (.effect f) graph.nextId).body net.defs.length =
      some (.effect ⟨net.handles.length, net.handles, f⟩) := by
    rw [body, last, take_add_last same, same]
  have laid := growing.begun (le_rfl) place what (fun _ _ => rfl) (fun _ _ => rfl) (fun holds => by cases holds)
  have ran : Ensures 2 (fun fuel => Job.run Task.meaning fuel (.rerun graph.nextId))
      (graph.begun (some root) (.effect ⟨net.handles.length, net.handles, f⟩)) log fun _ graph' log' =>
        graph' = { graph.begun (some root) (.effect ⟨net.handles.length, net.handles, f⟩) with
          cells := graph'.cells, owners := graph'.owners } ∧
        Laid (net.add (.effect f) graph.nextId) (sourcesIn log') { graph' with batchDepth := graph'.batchDepth - 1 } ∧
        (∀ c, graph'.valueOf c = graph.valueOf c) ∧
        log' = ⟨net.defs.length, f.seen (recompute net.defs signals)⟩ :: log := by
    refine (ensures_rerun_effect laid place last (ordered _ _ last) (growing.held fun _ _ => rfl)).mono ?_
    rintro _ _ _ ⟨laid', kept, frame, rfl⟩
    rw [update_idem, ← sourcesIn_cons] at laid'
    exact ⟨frame, laid'.congr rfl rfl rfl, kept, rfl⟩
  have made : Ensures 2 (fun fuel => Run.newReaction (Job.run Task.meaning fuel)
      (.effect ⟨net.handles.length, net.handles, f⟩)) graph log fun id graph' log' => id = graph.nextId ∧
        AtRest graph' (some root) ∧ graph'.nextId = graph.nextId + 1 ∧
        Laid (net.add (.effect f) graph.nextId) (sourcesIn log') graph' ∧
        (∀ c, graph'.valueOf c = graph.valueOf c) ∧
        log' = ⟨net.defs.length, f.seen (recompute net.defs signals)⟩ :: log :=
    ensures_newReaction settled.rest ran
  refine ensures_perform (made.mono ?_)
  rintro _ _ _ ⟨rfl, rest, nextId, laid', kept, rfl⟩
  refine growing.join ordered (le_rfl) laid' (fun c _ => kept c) ?_ ?_ (fun _ => lastSeen_cons_self _) rest ?_
  · intro holds
    cases holds
  · intro i before
    exact lastSeen_cons_of_ne before.ne _
  · rw [nextId]
    exact Nat.le_succ _

theorem ensures_create_computed {f : Reader ν ν} (ordered : Scoped (net.defs ++ [.computed f])) :
    (perform (.newComputed ⟨net.handles.length, net.handles, f⟩)).Ensures Task.meaning 2 graph log
      fun handle graph' log' => Growing (net.add (.computed f) handle) signals root graph' log' := by
  have same := growing.settled.laid.length_eq
  obtain ⟨made, cells, owners, resting⟩ := growing.newCell none
  have last : (net.add (.computed f) graph.nextId).defs[net.defs.length]? = some (.computed f) := defs_add_last
  have handle : (net.add (.computed f) graph.nextId).handle net.defs.length = graph.nextId := handle_add_last same
  have place : (net.add (.computed f) graph.nextId).reactor net.defs.length = (graph.newCell none).2.nextId := by
    rw [reactor, last, handle]
    rfl
  have what : (net.add (.computed f) graph.nextId).body net.defs.length =
      some (.computed graph.nextId ⟨net.handles.length, net.handles, f⟩) := by
    rw [body, last, take_add_last same, handle, same]
  have laid := growing.begun (le_rfl) place what cells owners fun _ => ⟨_, made, rfl, rfl⟩
  have ran : Ensures 2 (fun fuel => Job.run Task.meaning fuel (.rerun (graph.newCell none).2.nextId))
      ((graph.newCell none).2.begun (some root) (.computed graph.nextId ⟨net.handles.length, net.handles, f⟩)) log
      fun _ graph' log' =>
        graph' = { (graph.newCell none).2.begun (some root)
            (.computed graph.nextId ⟨net.handles.length, net.handles, f⟩) with
          cells := graph'.cells, owners := graph'.owners } ∧
        Laid (net.add (.computed f) graph.nextId) (sourcesIn log') { graph' with batchDepth := graph'.batchDepth - 1 } ∧
        (∀ c, graph'.valueOf c = if c = graph.nextId then some (f.eval (recompute net.defs signals))
          else (graph.newCell none).2.valueOf c) ∧
        log' = ⟨net.defs.length, f.seen (recompute net.defs signals)⟩ :: log := by
    refine ensures_rerun_computed laid place last (ordered _ _ last) (growing.held cells) ?_
    intro graph' slot laid' kept frame there free
    rw [handle] at there
    have shown : slot.value = none := by
      have value := kept graph.nextId
      rw [Graph.valueOf, there] at value
      refine value.trans ?_
      show ((graph.newCell none).2.cells.get? graph.nextId).bind _ = _
      rw [made]
      rfl
    rw [shown, handle]
    refine fun _ history _ => ⟨(), _, _, .wrote graph.nextId :: history, rfl, ?_, ?_, ?_, rfl⟩
    · rw [frame]
      rfl
    · rw [update_idem, ← sourcesIn_cons] at laid'
      exact (laid'.store graph.nextId _).congr rfl rfl rfl
    · intro c
      refine (Graph.valueOf_store (by simp [there]) _ c).trans ?_
      rw [kept c]
      rfl
  have made' : Ensures 2 (fun fuel => Run.newReaction (Job.run Task.meaning fuel)
      (.computed graph.nextId ⟨net.handles.length, net.handles, f⟩)) (graph.newCell none).2 log fun id graph' log' =>
        id = (graph.newCell none).2.nextId ∧ AtRest graph' (some root) ∧
        graph'.nextId = (graph.newCell none).2.nextId + 1 ∧
        Laid (net.add (.computed f) graph.nextId) (sourcesIn log') graph' ∧
        (∀ c, graph'.valueOf c = if c = graph.nextId then some (f.eval (recompute net.defs signals))
          else (graph.newCell none).2.valueOf c) ∧
        log' = ⟨net.defs.length, f.seen (recompute net.defs signals)⟩ :: log :=
    ensures_newReaction resting ran
  have opened : Ensures 2 (fun _ => Run.changeGraph (·.newCell none)) graph log fun cell graph' log' =>
      cell = graph.nextId ∧ graph' = (graph.newCell none).2 ∧ log' = log :=
    fun _ history _ => ⟨_, _, _, history, rfl, rfl, rfl, rfl⟩
  refine ensures_perform ?_
  simp only [Run.command, Run.newComputed]
  refine opened.bind ?_
  rintro _ _ _ ⟨rfl, rfl, rfl⟩
  refine made'.bind ?_
  rintro _ _ _ ⟨-, rest, nextId, laid', kept, rfl⟩
  refine .pure (growing.join ordered (le_rfl) laid' ?_ ?_ ?_ (fun _ => lastSeen_cons_self _) rest ?_)
  · intro c old
    rw [kept c, if_neg old.ne, Graph.valueOf, cells c old]
    rfl
  · intro _
    rw [kept, if_pos rfl, Definition.refresh, update_self]
  · intro i before
    exact lastSeen_cons_of_ne before.ne _
  · rw [nextId]
    exact Nat.le_add_right graph.nextId 2

theorem ensures_create (ordered : Scoped (net.defs ++ [d]))
    (given : ∀ value, d = .signal value → signals net.defs.length = value) :
    (d.create net.handles).Ensures Task.meaning 2 graph log
      fun handle graph' log' => Growing (net.add d handle) signals root graph' log' := by
  cases d with
  | signal value => exact ensures_create_signal growing ordered (given value rfl)
  | computed => exact ensures_create_computed growing ordered
  | effect => exact ensures_create_effect growing ordered

theorem ensures_createAll {rest : List (Definition ν)} (ordered : Scoped (net.defs ++ rest))
    (given : ∀ i value, (net.defs ++ rest)[i]? = some (.signal value) → signals i = value) :
    (createAll rest net.handles).Ensures Task.meaning 2 graph log
      fun handles graph' log' => Growing ⟨net.defs ++ rest, handles⟩ signals root graph' log' := by
  induction rest generalizing net graph log with
  | nil => exact ensures_pure (by simpa using growing)
  | cons d rest ih =>
    have split : net.defs ++ d :: rest = net.defs ++ [d] ++ rest := by simp
    rw [split] at ordered given
    refine (ensures_create growing ordered.left ?_).bind ?_
    · rintro value rfl
      exact given _ value (by simp)
    · intro handle graph' log' grown
      rw [split]
      exact ih grown ordered given

end

variable [LawfulBEq ν] {defs : List (Definition ν)} {owner : Option OwnerId}

theorem ensures_batches (settled : Settled net signals owner graph log) (ordered : Scoped net.defs)
    (only : ∀ writes ∈ batches, WritesSignals net.defs writes) :
    (batches.forM fun writes => batch (writeAll net.handles writes)).Ensures Task.meaning (net.defs.length + 3)
      graph log fun _ graph' log' => Settled net (written signals batches.flatten) owner graph' log' := by
  induction batches generalizing signals graph log with
  | nil => exact ensures_pure settled
  | cons writes _ ih =>
    refine (ensures_batch settled ordered (only writes (by simp))).bind ?_
    intro _ graph' log' flushed
    rw [List.flatten_cons, written_append]
    exact ih flushed.settled fun other mem => only other (List.mem_cons_of_mem writes mem)

theorem ensures_session [Inhabited ν] (ordered : Scoped defs) (rest : AtRest graph owner)
    (only : ∀ writes ∈ batches, WritesSignals defs writes) :
    (session defs batches).Ensures Task.meaning (defs.length + 3) graph log fun handles graph' log' =>
      Settled ⟨defs, handles⟩ (written (initial defs) batches.flatten) owner graph' log' := by
  have opened : (perform .newRoot : Program (Task ν) (Log ν) ν _).Ensures Task.meaning (defs.length + 3) graph log
      fun root graph' log' => root = graph.nextId ∧ graph' = (graph.newOwner none none).2 ∧ log' = log :=
    ensures_perform fun _ history _ => ⟨_, _, _, history, rfl, rfl, rfl, rfl⟩
  have made : (underRoot (createAll defs [])).Ensures Task.meaning (defs.length + 3) graph log
      fun result graph' log' => Settled ⟨defs, result.1⟩ (initial defs) owner graph' log' := by
    refine opened.bind ?_
    rintro _ _ log ⟨rfl, rfl, rfl⟩
    have empty : Growing ⟨[], []⟩ (initial defs) graph.nextId
        { (graph.newOwner none none).2 with owner := some graph.nextId, observer := none } log := by
      refine ⟨⟨⟨rfl, ?_, ?_, ?_, ?_, ?_⟩, ?_, ?_, ⟨rest.1, rest.2, rest.3, rfl, rfl⟩⟩, Nat.lt_succ_self _, ?_⟩ <;>
        simp [Net.Holds, Net.Reacts, Stored]
    have given : ∀ i value, defs[i]? = some (.signal value) → initial defs i = value := by
      intro i value found
      simp [initial, found]
    have grown : (createAll defs []).Ensures Task.meaning (defs.length + 3)
        { (graph.newOwner none none).2 with owner := some graph.nextId, observer := none } log
        fun handles graph' log' => Growing ⟨defs, handles⟩ (initial defs) graph.nextId graph' log' :=
      (ensures_createAll empty ordered given).raise (by omega)
    have owned : (ownedBy graph.nextId (createAll defs [])).Ensures Task.meaning (defs.length + 3)
        (graph.newOwner none none).2 log
        fun handles graph' log' => Settled ⟨defs, handles⟩ (initial defs) owner graph' log' := by
      refine ensures_ownedBy (grown.mono ?_)
      rintro _ _ _ ⟨settled, -, -⟩
      have resting := settled.rest
      exact ⟨settled.laid.congr rfl rfl rfl, settled.stored, settled.seen,
        ⟨resting.1, resting.2, resting.3, rest.4, rest.5⟩⟩
    refine owned.bind ?_
    exact fun handles graph' log' settled => ensures_pure settled
  refine made.bind ?_
  rintro ⟨_, _⟩ _ _ settled
  refine (ensures_batches settled ordered only).bind ?_
  exact fun _ _ _ ended => ensures_pure ended

end Making

/-- Glitch freedom. After definitions and earlier batches of writes, a batch runs reactions at most once each and in the
order of the definitions, and only those whose latest run has read a signal that was written or a computed value that
has changed; whatever they read is what computing everything anew from the signals gives. So the values and what each
reaction has last observed are as after any unbatched writes that leave the signals with the same values. -/
theorem glitch_free [Inhabited ν] [BEq ν] [LawfulBEq ν] {defs : List (Definition ν)} {earlier : List (List (Nat × ν))}
    {writes : List (Nat × ν)} {state : State (Task ν) (Log ν) ν} {owner : Option OwnerId} {fuel : Nat}
    (ordered : Scoped defs) (rest : AtRest state.graph owner) (early : ∀ batch ∈ earlier, WritesSignals defs batch)
    (only : WritesSignals defs writes) (enough : defs.length + 3 ≤ fuel) :
    ∃ handles before after,
      (session defs earlier).execute Task.meaning fuel state = .ok handles before ∧
      (Program.batch (writeAll handles writes)).execute Task.meaning fuel before = .ok () after ∧
      let signals := fun writes => written (initial defs) (earlier.flatten ++ writes)
      let new := recompute defs (signals writes)
      (∃ ran : List Nat, ran.Pairwise (· < ·) ∧ (∀ i ∈ ran, Prompted defs before.outside writes new i) ∧
        after.outside = (ran.map (observation defs new)).reverse ++ before.outside) ∧
      (∀ i d, defs[i]? = some d → d.holds = true → after.graph.valueOf (handles.getD i 0) = some (new i)) ∧
      ∀ others, WritesSignals defs others →
        (∀ i value, defs[i]? = some (.signal value) → signals others i = signals writes i) →
        ∃ final, (writeAll handles others).execute Task.meaning fuel before = .ok () final ∧
          ∀ i d, defs[i]? = some d →
            (d.holds = true → final.graph.valueOf (handles.getD i 0) = after.graph.valueOf (handles.getD i 0)) ∧
            (d.reacts = true → lastSeen i final.outside = lastSeen i after.outside) := by
  obtain ⟨graph, log, history⟩ := state
  obtain ⟨handles, graph₁, log₁, history₁, made, settled⟩ := ensures_session ordered rest early fuel history enough
  obtain ⟨_, graph₂, log₂, history₂, batched, flushed⟩ := ensures_batch settled ordered only fuel history₁ enough
  obtain ⟨ran, order, all, seen⟩ := flushed.ran
  have done := flushed.settled
  rw [← written_append] at all seen done
  refine ⟨handles, ⟨graph₁, log₁, history₁⟩, ⟨graph₂, log₂, history₂⟩, made, batched,
    ⟨ran, order, fun i inside => (all i inside).2, seen⟩, fun i d found holds => done.stored i ⟨d, found, holds⟩, ?_⟩
  intro others only' same
  obtain ⟨_, graph₃, log₃, history₃, unbatched, ended⟩ := ensures_writeAll settled ordered only' fuel history₁ enough
  rw [← written_append] at ended
  refine ⟨⟨graph₃, log₃, history₃⟩, unbatched, fun i d found => ⟨fun holds => ?_, fun acts => ?_⟩⟩
  · refine (ended.stored i ⟨d, found, holds⟩).trans ((congrArg some ?_).trans (done.stored i ⟨d, found, holds⟩).symm)
    exact recompute_congr ordered same found holds
  · refine (ended.seen i d found acts).trans ((congrArg some ?_).trans (done.seen i d found acts).symm)
    refine Definition.seen_congr fun entry read => ?_
    obtain ⟨-, source, there, holding⟩ := (ordered i d found).allows read
    exact recompute_congr ordered same there holding

/-- A number, whether it is odd, the next number, and an effect that looks at the next number of odd ones only. -/
def parity : List (Definition Nat) :=
  [.signal 1, .computed (.read 0 fun n => .give (n % 2)), .computed (.read 0 fun n => .give (n + 1)),
    .effect (.read 1 fun odd => if odd = 1 then .read 2 fun _ => .give () else .give ())]

theorem parity_scoped : Scoped parity := by
  intro i d found
  match i with
  | 0 =>
    obtain rfl : Definition.signal 1 = d := by simpa [parity] using found
    trivial
  | 1 =>
    obtain rfl : Definition.computed (.read 0 fun n => .give (n % 2)) = d := by simpa [parity] using found
    exact ⟨⟨by decide, _, rfl, rfl⟩, fun _ => trivial⟩
  | 2 =>
    obtain rfl : Definition.computed (.read 0 fun n => .give (n + 1)) = d := by simpa [parity] using found
    exact ⟨⟨by decide, _, rfl, rfl⟩, fun _ => trivial⟩
  | 3 =>
    obtain rfl : Definition.effect (.read 1 fun odd => if odd = 1 then .read 2 fun _ => .give () else .give ()) = d := by
      simpa [parity] using found
    refine ⟨⟨by decide, _, rfl, rfl⟩, fun odd => ?_⟩
    dsimp only
    split
    · exact ⟨⟨by decide, _, rfl, rfl⟩, fun _ => trivial⟩
    · trivial
  | _ + 4 => simp [parity] at found

/-- The number becomes odd again in a batch that sets it twice. -/
theorem glitch_free_parity : ∃ handles before after,
    (session parity [[(0, 2)]]).execute Task.meaning 7 { outside := [] } = .ok handles before ∧
    (Program.batch (writeAll handles [(0, 4), (0, 5)])).execute Task.meaning 7 before = .ok () after ∧
    after.graph.valueOf (handles.getD 1 0) = some 1 ∧ after.graph.valueOf (handles.getD 2 0) = some 6 ∧
    ∃ final, (writeAll handles [(0, 5), (0, 7), (0, 5)]).execute Task.meaning 7 before = .ok () final ∧
      lastSeen 3 final.outside = lastSeen 3 after.outside := by
  have rest : AtRest ({ outside := [] } : State (Task Nat) (Log Nat) Nat).graph none := ⟨rfl, rfl, rfl, rfl, rfl⟩
  have signal : parity[0]? = some (.signal 1) := rfl
  have early : ∀ batch ∈ [[(0, 2)]], WritesSignals parity batch := by
    simp only [List.mem_singleton, forall_eq, WritesSignals]
    exact ⟨1, signal⟩
  have only : WritesSignals parity [(0, 4), (0, 5)] := by
    simp [WritesSignals, signal]
  obtain ⟨handles, before, after, made, batched, _, values, unbatched⟩ :=
    glitch_free parity_scoped rest early only (show parity.length + 3 ≤ 7 by decide)
  obtain ⟨final, ran, same⟩ := unbatched [(0, 5), (0, 7), (0, 5)] (by simp [WritesSignals, signal]) (by
    intro i value found
    match i with
    | 0 => rfl
    | 1 | 2 | 3 | _ + 4 => simp [parity] at found)
  exact ⟨handles, before, after, made, batched, values 1 _ rfl rfl, values 2 _ rfl rfl, final, ran, (same 3 _ rfl).2 rfl⟩

end LiveMarkup.Reactive
