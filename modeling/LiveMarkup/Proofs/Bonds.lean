import LiveMarkup.Proofs.Execution

/-!
What owners and cells know of each other. An owner lists what was made under it, which names it as its parent, and a
cell lists the reactions that have read it, which name it as a source. While an owner is cleaned, its former children
are doomed, since they are listed no more, and its subscriptions are ending, since it names no sources any more.

Nothing holds an owner to a parent that is gone, or a subscriber that is gone to its cell: the handle of an owner can
be used after the owner was disposed. What is made under it then has nobody who would dispose it.
-/

namespace LiveMarkup.Reactive
open List Option Leads Run Reactive.Graph
open Table hiding find?

variable {P : Type → Type} {σ ν : Type} {graph next : Graph P ν} {doomed : Set OwnerId} {ending : Set (OwnerId × CellId)}
  {e : OwnerId}

/-- Who is there belongs together, except for doomed owners and subscriptions that are ending. An owner is younger than
whoever made it, as numbers are given in order. -/
structure Bonds (doomed : Set OwnerId) (ending : Set (OwnerId × CellId)) (graph : Graph P ν) : Prop where
  owners_old : ∀ e o, graph.owners.get? e = some o → e < graph.nextId
  subscribers_old : ∀ c slot, graph.cells.get? c = some slot → ∀ e ∈ slot.subscribers, e < graph.nextId
  observer_old : ∀ e, graph.observer = some e → e < graph.nextId
  once : ∀ p q, graph.owners.get? p = some q → q.children.Nodup
  children : ∀ p q, graph.owners.get? p = some q → ∀ e ∈ q.children,
    ∃ o, graph.owners.get? e = some o ∧ o.parent = some p
  listed : ∀ e o, graph.owners.get? e = some o → e ∉ doomed →
    ∀ p q, o.parent = some p → p < e → graph.owners.get? p = some q → e ∈ q.children
  sources : ∀ c slot, graph.cells.get? c = some slot → ∀ e ∈ slot.subscribers,
    ∀ o, graph.owners.get? e = some o → (e, c) ∉ ending → c ∈ o.sources

theorem Bonds.weaken {more : Set OwnerId} (bonds : Bonds doomed ending graph) (wider : doomed ⊆ more) :
    Bonds more ending graph :=
  { bonds with listed := fun e o found free => bonds.listed e o found fun mem => free (wider mem) }

theorem Bonds.flags (bonds : Bonds doomed ending graph) (queue : List OwnerId) (flushing : Bool) (batchDepth : Nat) :
    Bonds doomed ending { graph with queue, flushing, batchDepth } :=
  { bonds with }

theorem Bonds.context (bonds : Bonds doomed ending graph) (owner : Option OwnerId) {observer : Option OwnerId}
    (old : ∀ e, observer = some e → e < graph.nextId) : Bonds doomed ending { graph with owner, observer } :=
  { bonds with observer_old := old }

theorem Bonds.narrow (bonds : Bonds (insert e doomed) ending graph)
    (here : ∀ o, graph.owners.get? e = some o → ∀ p q, o.parent = some p → graph.owners.get? p = some q → e ∈ q.children) :
    Bonds doomed ending graph := by
  refine { bonds with listed := fun x o found free p q parent older above => ?_ }
  by_cases same : x = e
  · subst same
    exact here o found p q parent above
  · exact bonds.listed x o found (fun mem => mem.elim same free) p q parent older above

theorem Bonds.rewired {doomed' : Set OwnerId} {ending' : Set (OwnerId × CellId)} (change : OwnerId → Owner P ν → Owner P ν)
    (bonds : Bonds doomed ending graph) (nextId_le : graph.nextId ≤ next.nextId) (observer_eq : next.observer = graph.observer)
    (owners : ∀ e, next.owners.get? e = (graph.owners.get? e).map (change e))
    (parents : ∀ e o, (change e o).parent = o.parent)
    (subscribers_old : ∀ c slot, next.cells.get? c = some slot → ∀ e ∈ slot.subscribers, e < graph.nextId)
    (once : ∀ p q, graph.owners.get? p = some q → (change p q).children.Nodup)
    (children : ∀ p q, graph.owners.get? p = some q → ∀ e ∈ (change p q).children,
      ∃ o, graph.owners.get? e = some o ∧ o.parent = some p)
    (listed : ∀ e o, graph.owners.get? e = some o → e ∉ doomed' →
      ∀ p q, o.parent = some p → p < e → graph.owners.get? p = some q → e ∈ (change p q).children)
    (sources : ∀ c slot, next.cells.get? c = some slot → ∀ e ∈ slot.subscribers,
      ∀ o, graph.owners.get? e = some o → (e, c) ∉ ending' → c ∈ (change e o).sources) : Bonds doomed' ending' next := by
  have before : ∀ {e o}, next.owners.get? e = some o → ∃ old, graph.owners.get? e = some old ∧ change e old = o :=
    fun {e o} found => map_eq_some_iff.mp ((owners e).symm.trans found)
  constructor
  · intro e o found
    obtain ⟨old, there, _⟩ := before found
    exact (bonds.owners_old e old there).trans_le nextId_le
  · exact fun c slot found e mem => (subscribers_old c slot found e mem).trans_le nextId_le
  · exact fun e current => (bonds.observer_old e (observer_eq ▸ current)).trans_le nextId_le
  · intro p q found
    obtain ⟨old, there, rfl⟩ := before found
    exact once p old there
  · intro p q found e mem
    obtain ⟨old, there, rfl⟩ := before found
    obtain ⟨o, child, parent⟩ := children p old there e mem
    exact ⟨change e o, by rw [owners, child, map_some], (parents e o).trans parent⟩
  · intro e o found free p q parent older above
    obtain ⟨old, there, rfl⟩ := before found
    obtain ⟨elder, there', rfl⟩ := before above
    exact listed e old there free p elder ((parents e old).symm.trans parent) older there'
  · intro c slot found e mem o there free
    obtain ⟨old, there', rfl⟩ := before there
    exact sources c slot found e mem old there' free

theorem Table.get?_modify_eq_map {α : Type} (table : Table α) (key other : Nat) (f : α → α) :
    (table.modify key f).get? other = (table.get? other).map fun value => if other = key then f value else value := by
  rw [get?_modify]
  split <;> simp

def Owner.ties (o : Owner P ν) : Option OwnerId × List OwnerId × List CellId := (o.parent, o.children, o.sources)

structure Graph.Spares (graph next : Graph P ν) : Prop where
  nextId_le : graph.nextId ≤ next.nextId
  observer_eq : next.observer = graph.observer
  owners : ∃ change : OwnerId → Owner P ν → Owner P ν, (∀ e o, (change e o).ties = o.ties) ∧
    ∀ e, next.owners.get? e = (graph.owners.get? e).map (change e)
  cells : ∀ c slot, next.cells.get? c = some slot → ∀ e ∈ slot.subscribers,
    ∃ old, graph.cells.get? c = some old ∧ e ∈ old.subscribers

theorem Bonds.spared (bonds : Bonds doomed ending graph) (spares : graph.Spares next) : Bonds doomed ending next := by
  obtain ⟨change, same, owners⟩ := spares.owners
  have children : ∀ p q, (change p q).children = q.children := fun p q => congrArg (·.2.1) (same p q)
  refine bonds.rewired change spares.nextId_le spares.observer_eq owners (fun e o => congrArg (·.1) (same e o)) ?_ ?_ ?_ ?_ ?_
  · intro c slot found e mem
    obtain ⟨old, there, before⟩ := spares.cells c slot found e mem
    exact bonds.subscribers_old c old there e before
  · exact fun p q found => children p q ▸ bonds.once p q found
  · exact fun p q found e mem => bonds.children p q found e (children p q ▸ mem)
  · exact fun e o found free p q parent older above => children p q ▸ bonds.listed e o found free p q parent older above
  · intro c slot found e mem o there free
    obtain ⟨old, found', before⟩ := spares.cells c slot found e mem
    rw [show (change e o).sources = o.sources from congrArg (·.2.2) (same e o)]
    exact bonds.sources c old found' e before o there free

theorem Graph.Spares.refl (graph : Graph P ν) : graph.Spares graph :=
  ⟨le_rfl, rfl, ⟨fun _ o => o, fun _ _ => rfl, fun _ => map_id'.symm⟩,
    fun _ slot found _ mem => ⟨slot, found, mem⟩⟩

theorem spares_modify (owners : Table (Owner P ν)) (e : OwnerId) {change : Owner P ν → Owner P ν}
    (same : ∀ o, (change o).ties = o.ties) : ∃ all : OwnerId → Owner P ν → Owner P ν, (∀ x o, (all x o).ties = o.ties) ∧
      ∀ x, (owners.modify e change).get? x = (owners.get? x).map (all x) := by
  refine ⟨fun x o => if x = e then change o else o, fun x o => ?_, fun x => get?_modify_eq_map owners e x change⟩
  dsimp only
  split
  · exact same o
  · rfl

theorem Graph.Spares.modifyCell (graph : Graph P ν) (c : CellId) {change : Cell ν → Cell ν}
    (same : ∀ slot, (change slot).subscribers = slot.subscribers) :
    graph.Spares { graph with cells := graph.cells.modify c change } := by
  refine ⟨le_rfl, rfl, (Graph.Spares.refl graph).owners, fun other slot found e mem => ?_⟩
  obtain ⟨old, before, rfl | rfl⟩ := get?_modify_some found
  · exact ⟨old, before, same old ▸ mem⟩
  · exact ⟨slot, before, mem⟩

theorem Graph.Spares.newCell (graph : Graph P ν) (value : Option ν) : graph.Spares (graph.newCell value).2 := by
  refine ⟨Nat.le_succ _, rfl, ?_, fun c slot found e mem => ?_⟩
  · unfold Graph.newCell
    cases graph.owner with
    | none => exact (Graph.Spares.refl graph).owners
    | some owner => exact spares_modify graph.owners owner fun _ => rfl
  · simp only [Graph.newCell, get?_insert] at found
    split at found
    · obtain rfl := some.inj found
      simp at mem
    · exact ⟨slot, found, mem⟩

theorem Graph.Spares.addCleanup (graph : Graph P ν) (task : P Unit) : graph.Spares (graph.addCleanup task) := by
  unfold Graph.addCleanup
  split
  · exact .refl graph
  · exact ⟨le_rfl, rfl, spares_modify graph.owners _ fun _ => rfl,
      fun _ slot found _ mem => ⟨slot, found, mem⟩⟩

theorem Bonds.insertOwner (bonds : Bonds doomed ending graph) (parent : Option OwnerId) (body : Option (Body P ν)) :
    Bonds (insert graph.nextId doomed) ending
      { graph with nextId := graph.nextId + 1, owners := graph.owners.insert graph.nextId { parent, body } } := by
  have before : ∀ {e o}, (graph.owners.insert graph.nextId { parent, body }).get? e = some o →
      e = graph.nextId ∧ o = { parent, body } ∨ graph.owners.get? e = some o := fun {e o} found => by
    rw [get?_insert] at found
    split at found
    · exact .inl ⟨‹_›, (some.inj found).symm⟩
    · exact .inr found
  constructor
  · intro e o found
    rcases before found with ⟨rfl, _⟩ | there
    · exact Nat.lt_succ_self _
    · exact Nat.lt_succ_of_lt (bonds.owners_old e o there)
  · exact fun c slot found e mem => Nat.lt_succ_of_lt (bonds.subscribers_old c slot found e mem)
  · exact fun e current => Nat.lt_succ_of_lt (bonds.observer_old e current)
  · intro p q found
    rcases before found with ⟨_, rfl⟩ | there
    · exact .nil
    · exact bonds.once p q there
  · intro p q found e mem
    rcases before found with ⟨_, rfl⟩ | there
    · simp at mem
    · obtain ⟨o, child, parent⟩ := bonds.children p q there e mem
      exact ⟨o, (get?_insert ..).trans (if_neg (bonds.owners_old e o child).ne) |>.trans child, parent⟩
  · intro e o found free p q parent older above
    obtain ⟨new, free⟩ := not_or.mp free
    have there := (before found).resolve_left fun same => new same.1
    have elder : p < graph.nextId := older.trans (bonds.owners_old e o there)
    exact bonds.listed e o there free p q parent older ((before above).resolve_left fun same => elder.ne same.1)
  · intro c slot found e mem o there free
    have old := (bonds.subscribers_old c slot found e mem).ne
    exact bonds.sources c slot found e mem o ((before there).resolve_left fun same => old same.1) free

theorem Bonds.list {p : OwnerId} {o : Owner P ν} (bonds : Bonds (insert e doomed) ending graph)
    (found : graph.owners.get? e = some o) (parent : o.parent = some p)
    (unlisted : ∀ q, graph.owners.get? p = some q → e ∉ q.children) :
    Bonds doomed ending { graph with owners := graph.owners.modify p fun q => { q with children := q.children ++ [e] } } := by
  refine bonds.rewired _ (le_rfl) rfl (fun x => get?_modify_eq_map graph.owners p x _)
    (fun x o => by split <;> rfl) bonds.subscribers_old ?_ ?_ ?_ ?_
  · intro x q there
    split
    · subst x
      refine nodup_append.mpr ⟨bonds.once p q there, by simp, fun child mem last single => ?_⟩
      rw [mem_singleton.mp single]
      rintro rfl
      exact unlisted q there mem
    · exact bonds.once x q there
  · intro x q there child mem
    split at mem
    · subst x
      rcases mem_append.mp mem with mem | last
      · exact bonds.children p q there child mem
      · obtain rfl := mem_singleton.mp last
        exact ⟨o, found, parent⟩
    · exact bonds.children x q there child mem
  · intro x y there free z q above older there'
    by_cases same : x = e
    · subst same
      obtain rfl := some.inj (found.symm.trans there)
      obtain rfl := some.inj (parent.symm.trans above)
      simp
    · have mem := bonds.listed x y there (fun mem => mem.elim same free) z q above older there'
      split
      · exact mem_append_left _ mem
      · exact mem
  · intro c slot there x mem y there' free
    have named := bonds.sources c slot there x mem y there' free
    split <;> exact named

theorem Bonds.newOwner (bonds : Bonds doomed ending graph) (parent : Option OwnerId) (body : Option (Body P ν)) :
    Bonds doomed ending (graph.newOwner parent body).2 := by
  have made := bonds.insertOwner parent body
  have found : (graph.owners.insert graph.nextId { parent, body }).get? graph.nextId = some { parent, body } := by simp
  cases parent with
  | none =>
    refine made.narrow fun o there p q above => ?_
    obtain rfl := some.inj (found.symm.trans there)
    cases above
  | some p =>
    refine made.list found rfl fun q there mem => ?_
    rw [get?_insert] at there
    split at there
    · obtain rfl := some.inj there
      simp at mem
    · obtain ⟨o, child, _⟩ := bonds.children p q there _ mem
      exact lt_irrefl _ (bonds.owners_old _ o child)

theorem Bonds.track (bonds : Bonds doomed ending graph) (cell : CellId) : Bonds doomed ending (graph.track cell) := by
  unfold Graph.track
  split
  · exact bonds
  · rename_i observer current
    split
    · refine bonds.rewired _ (le_rfl) rfl (fun x => get?_modify_eq_map graph.owners observer x _)
        (fun x o => by split <;> rfl) ?_ ?_ ?_ ?_ ?_
      · intro c slot found e mem
        obtain ⟨old, before, rfl | rfl⟩ := get?_modify_some found
        · rcases (mem_insertSorted observer e old.subscribers).mp mem with rfl | mem
          · exact bonds.observer_old e current
          · exact bonds.subscribers_old c old before e mem
        · exact bonds.subscribers_old c slot before e mem
      · intro p q found
        split <;> exact bonds.once p q found
      · intro p q found e mem
        exact bonds.children p q found e (by split at mem <;> exact mem)
      · intro e o found free p q parent older above
        have mem := bonds.listed e o found free p q parent older above
        split <;> exact mem
      · intro c slot found e mem o there free
        have kept : c ∈ o.sources → c ∈ (if o.sources.contains cell then o.sources else cell :: o.sources) := fun named => by
          split
          · exact named
          · exact mem_cons_of_mem _ named
        rw [get?_modify] at found
        split at found
        · subst c
          obtain ⟨old, before, rfl⟩ := map_eq_some_iff.mp found
          rcases (mem_insertSorted observer e old.subscribers).mp mem with rfl | mem
          · rw [if_pos rfl]
            split
            · exact contains_iff_mem.mp ‹_›
            · exact mem_cons_self
          · have named := bonds.sources cell old before e mem o there free
            split
            · exact kept named
            · exact named
        · have named := bonds.sources c slot found e mem o there free
          split
          · exact kept named
          · exact named
    · exact bonds

theorem Bonds.resetOwner {owner : Owner P ν} (bonds : Bonds doomed ending graph)
    (found : graph.owners.get? e = some owner) :
    Bonds (doomed ∪ {child | child ∈ owner.children}) (ending ∪ {bond | bond.1 = e ∧ bond.2 ∈ owner.sources})
      (graph.resetOwner e) := by
  refine bonds.rewired _ (le_rfl) rfl (fun x => get?_modify_eq_map graph.owners e x _)
    (fun x o => by split <;> rfl) bonds.subscribers_old ?_ ?_ ?_ ?_
  · intro p q there
    split
    · exact .nil
    · exact bonds.once p q there
  · intro p q there child mem
    split at mem
    · simp at mem
    · exact bonds.children p q there child mem
  · intro x o there free p q parent older above
    obtain ⟨free, unlisted⟩ := not_or.mp free
    have mem := bonds.listed x o there free p q parent older above
    split
    · subst p
      obtain rfl := some.inj (found.symm.trans above)
      exact absurd mem unlisted
    · exact mem
  · intro c slot there x mem o there' free
    obtain ⟨free, kept⟩ := not_or.mp free
    have named := bonds.sources c slot there x mem o there' free
    split
    · subst x
      obtain rfl := some.inj (found.symm.trans there')
      exact absurd ⟨rfl, named⟩ kept
    · exact named

theorem Bonds.release {sources : List CellId} (dropped : List CellId)
    (bonds : Bonds doomed (ending ∪ {bond | bond.1 = e ∧ bond.2 ∈ sources}) graph) :
    Bonds doomed ending (graph.release e sources dropped) := by
  have before : ∀ {c slot}, (graph.release e sources dropped).cells.get? c = some slot → ∀ x ∈ slot.subscribers,
      ∃ old, graph.cells.get? c = some old ∧ x ∈ old.subscribers ∧ ¬ (x = e ∧ c ∈ sources) := by
    intro c slot found x mem
    rw [cells_release] at found
    split at found
    · cases found
    · split at found
      · obtain ⟨old, there, rfl⟩ := map_eq_some_iff.mp found
        obtain ⟨mem, apart⟩ := mem_filter.mp mem
        exact ⟨old, there, mem, fun same => by simp [same.1] at apart⟩
      · exact ⟨slot, found, mem, fun same => ‹c ∉ sources› same.2⟩
  refine { bonds with
    subscribers_old := fun c slot found x mem => ?_
    sources := fun c slot found x mem o there free => ?_ }
  · obtain ⟨old, there, mem, _⟩ := before found x mem
    exact bonds.subscribers_old c old there x mem
  · obtain ⟨old, there', mem, apart⟩ := before found x mem
    exact bonds.sources c old there' x mem o there (not_or.mpr ⟨free, apart⟩)

theorem Bonds.eraseOwner (bonds : Bonds (insert e doomed) ending graph) : Bonds doomed ending (graph.eraseOwner e) := by
  have before : ∀ {x o}, (graph.eraseOwner e).owners.get? x = some o → x ≠ e ∧ ∃ old, graph.owners.get? x = some old ∧
      o.parent = old.parent ∧ o.sources = old.sources ∧ o.children = old.children.filter (· != e) := by
    intro x o found
    rw [owners_erased] at found
    split at found
    · cases found
    · obtain ⟨old, there, rfl⟩ := map_eq_some_iff.mp found
      refine ⟨‹_›, old, there, ?_⟩
      split
      · exact ⟨rfl, rfl, rfl⟩
      · rename_i elsewhere
        refine ⟨rfl, rfl, (filter_eq_self.mpr fun child mem => ?_).symm⟩
        obtain ⟨_, child', parent⟩ := bonds.children x old there child mem
        have apart : child ≠ e := by
          rintro rfl
          exact elsewhere (by simp [child', parent])
        simpa using apart
  have after : ∀ {x old}, graph.owners.get? x = some old → x ≠ e →
      ∃ o, (graph.eraseOwner e).owners.get? x = some o ∧ o.parent = old.parent := by
    intro x old there apart
    rw [owners_erased, if_neg apart, there]
    refine ⟨_, rfl, ?_⟩
    split <;> rfl
  constructor
  · intro x o found
    obtain ⟨_, old, there, _⟩ := before found
    exact bonds.owners_old x old there
  · exact bonds.subscribers_old
  · exact bonds.observer_old
  · intro p q found
    obtain ⟨_, old, there, _, _, children⟩ := before found
    exact children ▸ (bonds.once p old there).filter _
  · intro p q found child mem
    obtain ⟨_, old, there, _, _, children⟩ := before found
    obtain ⟨mem, apart⟩ := mem_filter.mp (children ▸ mem)
    obtain ⟨_, child', parent⟩ := bonds.children p old there child mem
    obtain ⟨o', there', same⟩ := after child' (by simpa using apart)
    exact ⟨o', there', same.trans parent⟩
  · intro x o found free p q parent older above
    obtain ⟨apart, old, there, same, _⟩ := before found
    obtain ⟨_, elder, there', _, _, children⟩ := before above
    have mem := bonds.listed x old there (not_or.mpr ⟨apart, free⟩) p elder (same.symm.trans parent) older there'
    exact children ▸ mem_filter.mpr ⟨mem, by simpa using apart⟩
  · intro c slot found x mem o there free
    obtain ⟨_, old, there', _, same, _⟩ := before there
    exact same ▸ bonds.sources c slot found x mem old there' free

section Runs

def Bonded (doomed : Set OwnerId) (ending : Set (OwnerId × CellId)) (state : State P σ ν) : Prop :=
  Bonds doomed ending state.graph

def Binds {α : Type} (run : Run P σ ν α) : Prop :=
  ∀ doomed ending, Leads (Bonded doomed ending) run (Bonded doomed ending)

/-- What is needed of the jobs that run inside. An owner that is disposed may be doomed. -/
structure Bonding (runner : Runner P σ ν) : Prop where
  perform : ∀ {ι : Type} (task : P ι), Binds (runner (.perform task))
  dispose : ∀ e doomed ending, Leads (Bonded (insert e doomed) ending) (runner (.dispose e)) (Bonded doomed ending)
  rerun : ∀ e, Binds (runner (.rerun e))
  drain : Binds (runner .drain)

variable {α β : Type} {self : Runner P σ ν}

theorem Binds.rules : RunRules fun (run : Run P σ ν _) _ => Binds run :=
  .all fun doomed => .all fun ending => Leads.rules (Bonded doomed ending)

theorem Binds.bind {first : Run P σ ν α} {after : α → Run P σ ν β} (one : Binds first) (two : ∀ value, Binds (after value)) :
    Binds (first >>= after) :=
  fun doomed ending => (one doomed ending).bind fun value => two value doomed ending

structure Mild (change : Graph P ν → Graph P ν) : Prop where
  bonds : ∀ {doomed ending} {graph : Graph P ν}, Bonds doomed ending graph → Bonds doomed ending (change graph)
  grows : ∀ graph : Graph P ν, graph.Grows (change graph)
  flushing_eq : ∀ graph : Graph P ν, (change graph).flushing = graph.flushing
  batchDepth_eq : ∀ graph : Graph P ν, (change graph).batchDepth = graph.batchDepth

theorem Mild.leads {change : Graph P ν → Graph P ν} (mild : Mild change) {state : State P σ ν}
    (bonded : Bonded doomed ending state) :
    Bonded doomed ending { state with graph := change state.graph } ∧
      Follows state { state with graph := change state.graph } :=
  ⟨mild.bonds bonded, mild.grows _, mild.flushing_eq _, mild.batchDepth_eq _⟩

theorem Binds.alter {change : Graph P ν → Graph P ν} (mild : Mild change) : Binds (alterGraph change : Run P σ ν Unit) :=
  fun _ _ => Leads.alter fun _ => mild.leads

theorem Binds.change {ι : Type} {change : Graph P ν → ι × Graph P ν} (mild : Mild fun graph => (change graph).2) :
    Binds (changeGraph change : Run P σ ν ι) := by
  intro doomed ending state result next bonded ok
  cases ok
  exact mild.leads bonded

theorem Mild.newCell (value : Option ν) : Mild fun graph : Graph P ν => (graph.newCell value).2 :=
  ⟨fun bonds => bonds.spared (.newCell _ value), fun graph => (Quiet.newCell graph value : Quiet ∅ _ _).grows,
    fun _ => rfl, fun _ => rfl⟩

theorem Mild.newOwner (parent : Graph P ν → Option OwnerId) (body : Option (Body P ν)) :
    Mild fun graph : Graph P ν => (graph.newOwner (parent graph) body).2 :=
  ⟨fun bonds => bonds.newOwner _ body, fun graph => (Quiet.newOwner graph (parent graph) body : Quiet ∅ _ _).grows,
    fun _ => rfl, fun _ => rfl⟩

theorem Mild.track (cell : CellId) : Mild fun graph : Graph P ν => graph.track cell :=
  ⟨fun bonds => bonds.track cell, fun graph => .track graph cell, fun graph => (graph.track_frame cell).2.1,
    fun graph => (graph.track_frame cell).2.2.1⟩

theorem Mild.addCleanup (task : P Unit) : Mild fun graph : Graph P ν => graph.addCleanup task := by
  refine ⟨fun bonds => bonds.spared (.addCleanup _ task),
    fun graph => (Quiet.addCleanup graph task : Quiet ∅ _ _).grows, ?_, ?_⟩ <;>
    intro graph <;> unfold Graph.addCleanup <;> split <;> rfl

theorem Mild.modifyCell (c : CellId) {change : Cell ν → Cell ν} (same : ∀ slot, (change slot).subscribers = slot.subscribers) :
    Mild fun graph : Graph P ν => { graph with cells := graph.cells.modify c change } :=
  ⟨fun bonds => bonds.spared (.modifyCell _ c same), fun _ => ⟨le_rfl, fun _ owner found => .inr ⟨owner, found, rfl⟩⟩,
    fun _ => rfl, fun _ => rfl⟩

theorem Mild.store (cell : CellId) (value : ν) : Mild fun graph : Graph P ν => graph.store cell value :=
  .modifyCell cell fun _ => rfl

theorem Mild.setInUse (cell : CellId) (inUse : Bool) : Mild fun graph : Graph P ν => graph.setInUse cell inUse :=
  .modifyCell cell fun _ => rfl

theorem Mild.enqueueSubscribers (cell : CellId) : Mild fun graph : Graph P ν => graph.enqueueSubscribers cell := by
  have same : ∀ graph : Graph P ν, ∃ queue, graph.enqueueSubscribers cell = { graph with queue } := fun graph => by
    unfold Graph.enqueueSubscribers
    split
    · exact ⟨graph.queue, rfl⟩
    · exact ⟨_, rfl⟩
  refine ⟨fun {_ _ graph} bonds => ?_, fun graph => ?_, fun graph => ?_, fun graph => ?_⟩ <;>
    obtain ⟨queue, same⟩ := same graph <;> rw [same]
  · exact bonds.flags queue graph.flushing graph.batchDepth
  · exact ⟨le_rfl, fun _ owner found => .inr ⟨owner, found, rfl⟩⟩

end Runs

section Jobs

variable {self : Runner P σ ν} {ι : Type} {body : Run P σ ν ι}

theorem Binds.store (cell : CellId) (value : ν) : Binds (store cell value : Run P σ ν Unit) := by
  intro doomed ending state result next bonded ok
  obtain ⟨_, _, here, ok⟩ := bind_ok ok
  cases here
  cases ok
  obtain ⟨bonded, follows⟩ := (Mild.store cell value).leads bonded
  exact ⟨bonded, follows.grows, follows.flushing_eq, follows.batchDepth_eq⟩

theorem Binds.flush (bonding : Bonding self) : Binds (flush self) := by
  intro doomed ending
  refine Leads.flush (bonding.drain doomed ending) (fun _ bonded _ => bonded) ?_ ?_
  · exact fun state bonded => bonded.flags state.graph.queue true state.graph.batchDepth
  · exact fun state bonded => bonded.flags state.graph.queue false state.graph.batchDepth

theorem Binds.notify (bonding : Bonding self) (cell : CellId) : Binds (notify self cell) :=
  Binds.rules.notify self self (.alter (.enqueueSubscribers cell)) (.flush bonding)

theorem Binds.write (bonding : Bonding self) (cell : CellId) (value : ν) : Binds (write self cell value) :=
  Binds.rules.write self self ((Binds.store cell value).bind fun _ => .notify bonding cell)

theorem Binds.inBatch (bonding : Bonding self) (binds : Binds body) : Binds (inBatch self body) := by
  intro doomed ending
  refine batch (binds doomed ending) (Binds.flush bonding doomed ending) ?_ ?_ fun _ bonded _ => bonded
  · exact fun state bonded => bonded.flags state.graph.queue state.graph.flushing (state.graph.batchDepth + 1)
  · exact fun state bonded => bonded.flags state.graph.queue state.graph.flushing (state.graph.batchDepth - 1)

theorem Binds.inContext (binds : Binds body) (owner observer : Option OwnerId) :
    Leads (fun state => Bonded doomed ending state ∧ ∀ e, observer = some e → e < state.graph.nextId)
      (inContext owner observer body) (Bonded doomed ending) := by
  refine context (binds doomed ending) (fun state holds => holds.1.context owner holds.2) ?_
  intro state mem holds grows bonded
  exact bonded.context state.graph.owner fun e current => (holds.1.observer_old e current).trans_le grows.nextId_le

theorem Bonding.children (bonding : Bonding self) (children : List OwnerId) :
    Leads (Bonded (doomed ∪ {child | child ∈ children}) ending) (children.forM fun child => self (.dispose child))
      (Bonded doomed ending) := by
  induction children with
  | nil => exact (pure ()).mono (fun _ bonded => bonded.weaken (by simp)) fun _ => id
  | cons child _ ih =>
    refine ((bonding.dispose child _ ending).mono (fun _ bonded => bonded.weaken ?_) fun _ => id).bind fun _ => ih
    rintro _ (mem | mem)
    · exact .inr (.inl mem)
    · exact (mem_cons.mp mem).imp id .inr

section

variable (bonding : Bonding self)
include bonding

theorem Binds.clean (e : OwnerId) : Binds (clean self e) := by
  intro doomed ending
  refine Leads.see fun found => ?_
  cases found with
  | none => exact (Leads.pure ()).mono (fun _ => And.left) fun _ => id
  | some owner =>
    have kept : Binds (owner.cleanups.reverse.forM fun task => self (.perform task)) := fun doomed ending =>
      Leads.forM (fun task => bonding.perform task doomed ending) _
    have resets : Leads (fun state : State P σ ν => Bonded doomed ending state ∧ state.graph.owners.get? e = some owner)
        (alterGraph (·.resetOwner e)) (Bonded (doomed ∪ {child | child ∈ owner.children.reverse})
          (ending ∪ {bond | bond.1 = e ∧ bond.2 ∈ owner.sources})) := by
      refine Leads.alter fun state holds => ⟨(holds.1.resetOwner holds.2).weaken ?_,
        (Quiet.resetOwner state.graph e : Quiet ∅ _ _).grows, rfl, rfl⟩
      exact Set.union_subset_union_right doomed fun child mem => mem_reverse.mpr mem
    have releases : Leads (Bonded doomed (ending ∪ {bond | bond.1 = e ∧ bond.2 ∈ owner.sources}))
        (alterGraph (·.release e owner.sources owner.cells) : Run P σ ν Unit) (Bonded doomed ending) :=
      Leads.alter fun state bonded => ⟨Bonds.release owner.cells bonded,
        (Quiet.release state.graph (Set.mem_univ e) owner.sources owner.cells).grows, rfl, rfl⟩
    exact resets.bind fun _ => (bonding.children owner.children.reverse).bind fun _ =>
      (kept _ _).bind fun _ => releases

theorem Binds.dispose (e : OwnerId) : Leads (Bonded (insert e doomed) ending) (dispose self e) (Bonded doomed ending) :=
  (Binds.clean bonding e _ _).bind fun _ => Leads.alter fun state bonded =>
    ⟨bonded.eraseOwner, (Quiet.eraseOwner state.graph e : Quiet ∅ _ _).grows, rfl, rfl⟩

theorem Binds.runBody [BEq ν] (body : Body P ν) : Binds (runBody self body) :=
  Binds.rules.runBody self self bonding.perform .store (.write bonding)

theorem Binds.rerun [BEq ν] (e : OwnerId) : Binds (rerun self e) := by
  intro doomed ending
  refine see fun found => ?_
  cases found with
  | none => exact (pure ()).mono (fun _ => And.left) fun _ => id
  | some owner =>
    cases what : owner.body with
    | none =>
      simp only [bind_some, what]
      exact (pure ()).mono (fun _ => And.left) fun _ => id
    | some body =>
      simp only [bind_some, what]
      rintro _ _ _ ⟨bonded, found⟩ ok
      obtain ⟨_, cleaned, here, ok⟩ := bind_ok ok
      have old := bonded.owners_old e owner found
      obtain ⟨bonded, follows⟩ := Binds.clean bonding e doomed ending _ _ _ bonded here
      obtain ⟨_, begun, here, ok⟩ := bind_ok ok
      cases here
      have known : ∀ x, some e = some x → x < cleaned.graph.nextId := fun x same =>
        some.inj same ▸ old.trans_le follows.grows.nextId_le
      have begun : Bonded doomed ending { cleaned with history := .began e :: cleaned.history } := bonded
      obtain ⟨bonded, onward⟩ := Binds.inContext (Binds.runBody bonding body) (some e) (some e) _ _ _ ⟨begun, known⟩ ok
      exact ⟨bonded, follows.trans { onward with }⟩

theorem Binds.drain : Binds (drain self) := by
  intro doomed ending
  refine Leads.see fun queue => ?_
  cases queue with
  | nil => exact (Leads.pure ()).mono (fun _ => And.left) fun _ => id
  | cons next rest =>
    refine Leads.bind (Leads.alter fun state holds => ?_) fun _ =>
      (bonding.rerun next doomed ending).bind fun _ => bonding.drain doomed ending
    exact ⟨holds.1.flags rest state.graph.flushing state.graph.batchDepth,
      ⟨le_rfl, fun _ owner found => .inr ⟨owner, found, rfl⟩⟩, rfl, rfl⟩

theorem Binds.newReaction (body : Body P ν) : Binds (newReaction self body) :=
  (Binds.change (.newOwner owner (some body))).bind fun id =>
    (Binds.inBatch bonding (bonding.rerun id)).bind fun _ => Binds.rules.pure id

end

theorem Binds.note (happening : Happening) : Binds (note happening : Run P σ ν Unit) := by
  intro doomed ending state result next bonded ok
  cases ok
  exact ⟨bonded, .refl _, rfl, rfl⟩

theorem Binds.steps (bonding : Bonding self) : RunSteps (fun (run : Run P σ ν _) _ => Binds run) self self where
  toRunRules := Binds.rules
  state change doomed ending state result next bonded ok := by
    cases ok
    exact ⟨bonded, .refl _, rfl, rfl⟩
  perform := bonding.perform
  newSignal value := .change (.newCell (some value))
  newComputed task := Binds.rules.newComputed self self (.change (.newCell none)) fun _ => .newReaction bonding _
  newEffect task := .newReaction bonding (.effect task)
  newRoot := .change (.newOwner (fun _ => none) none)
  onDispose task := .alter (.addCleanup task)
  dispose owner doomed ending := (Binds.dispose bonding owner).mono
    (fun _ bonded => bonded.weaken (Set.subset_insert owner doomed)) fun _ => id
  read tracked cell := Binds.rules.read (.alter (.track cell)) fun _ => .note _
  write := .write bonding
  inBatch := .inBatch bonding
  unobserved owner binds doomed ending := (binds.inContext owner none).mono (fun _ bonded => ⟨bonded, by simp⟩) fun _ => id
  update {cell body _} binds := Binds.rules.updateCell self self body body fun old =>
    (Binds.alter (.setInUse cell true)).bind fun _ => (binds old).bind fun value => (Binds.store cell value).bind fun _ =>
      (Binds.alter (.setInUse cell false)).bind fun _ => .notify bonding cell

theorem Bonding.step [BEq ν] (bonding : Bonding self) (meaning : Interpretation P σ ν) : Bonding (Job.step meaning self) where
  perform task := (Binds.steps bonding).program (meaning task)
  dispose e _ _ := Binds.dispose bonding e
  rerun e := .rerun bonding e
  drain := .drain bonding

theorem Bonding.run [BEq ν] (meaning : Interpretation P σ ν) (fuel : Nat) : Bonding (Job.run meaning fuel) := by
  induction fuel with
  | zero =>
    exact ⟨fun _ _ _ => throw _, fun _ _ _ => throw _, fun _ _ _ => throw _, fun _ _ => throw _⟩
  | succ _ ih => exact ih.step meaning

end Jobs

section Calls

variable [BEq ν] {meaning : Interpretation P σ ν} {state : State P σ ν}

theorem Reached.bonded (reached : Reached meaning state) : Bonded ∅ ∅ state := by
  induction reached with
  | start => constructor <;> simp [get?, Table.find?]
  | call _ program fuel returns ih => exact ((Binds.steps (Bonding.run meaning fuel)).program program ∅ ∅ _ _ _ ih returns).1

/-- Between calls everybody who is there belongs together. Who is listed by an owner is there and names it as its
parent. Who has a parent that is still there, which is older, is listed by it once. Who is subscribed to a cell and is
there is a reaction that names the cell among its sources. -/
theorem whoever_is_there_belongs_together (reached : Reached meaning state) :
    (∀ p q, state.graph.owners.get? p = some q → ∀ e ∈ q.children,
      ∃ o, state.graph.owners.get? e = some o ∧ o.parent = some p) ∧
    (∀ e o p q, state.graph.owners.get? e = some o → o.parent = some p → p < e → state.graph.owners.get? p = some q →
      q.children.count e = 1) ∧
    (∀ c slot, state.graph.cells.get? c = some slot → ∀ e ∈ slot.subscribers,
      ∀ o, state.graph.owners.get? e = some o → o.body.isSome ∧ c ∈ o.sources) := by
  have bonds : Bonds ∅ ∅ state.graph := reached.bonded
  refine ⟨bonds.children, fun e o p q found parent older above => ?_, fun c slot found e inside o there => ⟨?_, ?_⟩⟩
  · exact count_eq_one_of_mem (bonds.once p q above) (bonds.listed e o found (by simp) p q parent older above)
  · exact (reached.calm.1.1.subscribed c slot found e inside).2 o there
  · exact bonds.sources c slot found e inside o there (by simp)

end Calls

/-- Reads a cell, for an owner that stays or for one that has just disposed itself. -/
inductive Visit : Type → Type where
  | staying (cell : CellId) : Visit Unit
  | leaving (cell : CellId) : Visit Unit

def Visit.meaning : Interpretation Visit Unit Nat
  | _, .staying cell => do
    let _ ← Program.get true cell
  | _, .leaving cell => do
    if let some owner ← Program.perform .currentOwner then Program.perform (.dispose owner)
    let _ ← Program.get true cell

def readUnderRoot : Program Visit Unit Nat Unit := do
  let cell ← Program.perform (.newSignal 1)
  let _ ← Program.underRoot (Program.perform (.newEffect (.staying cell)))

theorem whoever_is_there_belongs_together_root : ∃ state, Reached Visit.meaning state ∧
    ∃ root reaction, state.graph.owners.get? 2 = some root ∧ root.children.count 3 = 1 ∧
      state.graph.owners.get? 3 = some reaction ∧ reaction.body.isSome ∧ 1 ∈ reaction.sources := by
  have ran : (match readUnderRoot.execute Visit.meaning 9 { outside := () } with
      | .ok _ state => state.graph.ownerAlive 2 && decide ((state.graph.owners.get? 3).map Owner.parent = some (some 2)) &&
          decide ((state.graph.cells.get? 1).map Cell.subscribers = some [3])
      | .error _ _ => false) = true := by decide +kernel
  split at ran
  · rename_i state returns
    simp only [Bool.and_eq_true, decide_eq_true_eq] at ran
    obtain ⟨⟨alive, made⟩, subscribed⟩ := ran
    have reached : Reached Visit.meaning state := .call (.start ()) readUnderRoot 9 returns
    obtain ⟨_, lists, names⟩ := whoever_is_there_belongs_together reached
    obtain ⟨root, above⟩ := isSome_iff_exists.mp alive
    obtain ⟨reaction, there, parent⟩ := map_eq_some_iff.mp made
    obtain ⟨slot, found, subscribers⟩ := map_eq_some_iff.mp subscribed
    obtain ⟨acts, named⟩ := names 1 slot found 3 (by simp [subscribers]) reaction there
    exact ⟨state, reached, root, reaction, above, lists 3 reaction 2 root there parent (by decide) above, there, acts, named⟩
  · cases ran

/-- A reaction is made under a root that was disposed, and another one disposes itself before it reads. -/
def readAstray : Program Visit Unit Nat Unit := do
  let cell ← Program.perform (.newSignal 1)
  let (_, root) ← Program.underRoot (return ())
  Program.perform (.dispose root)
  let _ ← Program.ownedBy root (Program.perform (.newEffect (.staying cell)))
  let _ ← Program.perform (.newEffect (.leaving cell))
  Program.perform (.write cell 2)

/-- The parent of a reaction is gone, and yet it is there and runs. A subscriber of a cell that is there is gone. -/
theorem orphan_and_gone_subscriber_astray : ∃ state, Reached Visit.meaning state ∧
    (∃ orphan, state.graph.owners.get? 3 = some orphan ∧ orphan.parent = some 2 ∧ state.graph.ownerAlive 2 = false ∧
      state.history.count (.began 3) = 2) ∧
    ∃ slot, state.graph.cells.get? 1 = some slot ∧ 4 ∈ slot.subscribers ∧ state.graph.ownerAlive 4 = false := by
  have ran : (match readAstray.execute Visit.meaning 9 { outside := () } with
      | .ok _ state => decide ((state.graph.owners.get? 3).map Owner.parent = some (some 2)) && !state.graph.ownerAlive 2 &&
          decide (state.history.count (.began 3) = 2) &&
          decide ((state.graph.cells.get? 1).map Cell.subscribers = some [3, 4]) && !state.graph.ownerAlive 4
      | .error _ _ => false) = true := by decide +kernel
  split at ran
  · rename_i state returns
    simp only [Bool.and_eq_true, decide_eq_true_eq, Bool.not_eq_true'] at ran
    obtain ⟨⟨⟨⟨made, above⟩, twice⟩, subscribed⟩, gone⟩ := ran
    obtain ⟨orphan, there, parent⟩ := map_eq_some_iff.mp made
    obtain ⟨slot, found, subscribers⟩ := map_eq_some_iff.mp subscribed
    exact ⟨state, .call (.start ()) readAstray 9 returns, ⟨orphan, there, parent, above, twice⟩, slot, found,
      by simp [subscribers], gone⟩
  · cases ran

end LiveMarkup.Reactive
