import LiveMarkup.Proofs.Disposal

/-!
Disposing a subtree. An owner goes after its children have gone, the newest first, and after it has done its cleanups, the
newest first. With it go its cells, its subscriptions and its place in the queue, and nothing else changes, provided that
owners and cells know of each other and that no cleanup touches the graph.
-/

namespace LiveMarkup.Reactive
open List Table Job
open Option hiding filter_filter map_map or_self

variable {P : Type → Type} {σ ν : Type}

section Orders

variable {graph base next last : Graph P ν} {e : OwnerId} {es gone more : List OwnerId} {tasks : List (P Unit)}

/-- Owners and cells know of each other. An owner lists who names it as its parent, once each, and these are younger, as
numbers are given in order. A cell is subscribed by an owner that is there just when the owner names it as a source. -/
structure Graph.Linked (graph : Graph P ν) : Prop where
  children : ∀ p q, graph.owners.get? p = some q → ∀ e,
    e ∈ q.children ↔ ∃ o, graph.owners.get? e = some o ∧ o.parent = some p
  once : ∀ p q, graph.owners.get? p = some q → q.children.Nodup
  younger : ∀ p q, graph.owners.get? p = some q → ∀ e ∈ q.children, p < e
  subscriptions : ∀ c slot, graph.cells.get? c = some slot → ∀ e o, graph.owners.get? e = some o →
    (e ∈ slot.subscribers ↔ c ∈ o.sources)

/-- The order in which owners go that are disposed one after the other, and in which cleanups are done meanwhile: first
those of the children, from the newest to the oldest, and then an owner's own, likewise. -/
inductive Graph.Sweep (graph : Graph P ν) : List OwnerId → List OwnerId → List (P Unit) → Prop where
  | nil : graph.Sweep [] [] []
  | cons {e : OwnerId} {o : Owner P ν} {es below beside : List OwnerId} {inner later : List (P Unit)} :
      graph.owners.get? e = some o → graph.Sweep o.children.reverse below inner → graph.Sweep es beside later →
      graph.Sweep (e :: es) (below ++ e :: beside) (inner ++ o.cleanups.reverse ++ later)

theorem Graph.Sweep.unique {gone' : List OwnerId} {tasks' : List (P Unit)} (one : graph.Sweep es gone tasks)
    (two : graph.Sweep es gone' tasks') : gone' = gone ∧ tasks' = tasks := by
  induction one generalizing gone' tasks' with
  | nil =>
    cases two
    exact ⟨rfl, rfl⟩
  | cons found _ _ ihBelow ihBeside =>
    cases two with
    | cons found' below' beside' =>
      obtain rfl := some.inj (found.symm.trans found')
      obtain ⟨rfl, rfl⟩ := ihBelow below'
      obtain ⟨rfl, rfl⟩ := ihBeside beside'
      exact ⟨rfl, rfl⟩

theorem Graph.Sweep.subset (sweep : graph.Sweep es gone tasks) : es ⊆ gone := by
  induction sweep with
  | nil => exact Subset.refl _
  | cons _ _ _ _ ih => exact cons_subset.mpr ⟨by simp, fun x mem => by simp [ih mem]⟩

theorem Graph.Sweep.closed (sweep : graph.Sweep es gone tasks) (mem : e ∈ gone) :
    ∃ o, graph.owners.get? e = some o ∧ o.children ⊆ gone := by
  induction sweep with
  | nil => cases mem
  | @cons _ o _ _ _ _ _ found below' _ ihBelow ihBeside =>
    simp only [mem_append, mem_cons] at mem
    rcases mem with mem | rfl | mem
    · obtain ⟨o, there, within⟩ := ihBelow mem
      exact ⟨o, there, fun child listed => mem_append_left _ (within listed)⟩
    · exact ⟨o, found, fun child listed => mem_append_left _ (below'.subset (mem_reverse.mpr listed))⟩
    · obtain ⟨o, there, within⟩ := ihBeside mem
      exact ⟨o, there, fun child listed => mem_append_right _ (mem_cons_of_mem _ (within listed))⟩

theorem Graph.Sweep.cleanup (sweep : graph.Sweep es gone tasks) {task : P Unit} (mem : task ∈ tasks) :
    ∃ e ∈ gone, ∃ o, graph.owners.get? e = some o ∧ task ∈ o.cleanups := by
  induction sweep with
  | nil => cases mem
  | @cons top o _ _ _ _ _ found _ _ ihBelow ihBeside =>
    simp only [mem_append, mem_reverse] at mem
    rcases mem with (mem | own) | mem
    · obtain ⟨e, goes, rest⟩ := ihBelow mem
      exact ⟨e, mem_append_left _ goes, rest⟩
    · exact ⟨top, by simp, o, found, own⟩
    · obtain ⟨e, goes, rest⟩ := ihBeside mem
      exact ⟨e, by simp [goes], rest⟩

def Graph.Named (graph : Graph P ν) : Prop :=
  ∀ p q, graph.owners.get? p = some q → ∀ e ∈ q.children, ∃ o, graph.owners.get? e = some o ∧ o.parent = some p

def Graph.Sources (graph base : Graph P ν) (gone : List OwnerId) : Prop :=
  ∀ e ∈ gone, ∀ o, base.owners.get? e = some o → ∀ c slot, graph.cells.get? c = some slot → e ∈ slot.subscribers → c ∈ o.sources

def Graph.cellsOf (graph : Graph P ν) (gone : List OwnerId) : List CellId :=
  gone.flatMap fun e => ((graph.owners.get? e).map Owner.cells).getD []

/-- Some owners are gone, with the cells that they had in `base`, and nobody knows of them. -/
structure Graph.Rid (base : Graph P ν) (gone : List OwnerId) (graph next : Graph P ν) : Prop where
  owners : ∀ e, next.owners.get? e = if e ∈ gone then none else
    (graph.owners.get? e).map fun o => { o with children := o.children.filter (· ∉ gone) }
  cells : ∀ c, next.cells.get? c = if c ∈ base.cellsOf gone then none else
    (graph.cells.get? c).map fun slot => { slot with subscribers := slot.subscribers.filter (· ∉ gone) }
  queue_eq : next.queue = graph.queue.filter (· ∉ gone)
  frame : next = { graph with owners := next.owners, cells := next.cells, queue := next.queue }

theorem Graph.Rid.refl (base graph : Graph P ν) : base.Rid [] graph graph where
  owners e := by simp
  cells c := by simp [Graph.cellsOf]
  queue_eq := by simp
  frame := rfl

theorem filter_left (list gone more : List OwnerId) :
    (list.filter (· ∉ gone)).filter (· ∉ more) = list.filter (· ∉ gone ++ more) := by
  rw [filter_filter]
  congr 1
  funext e
  simp [Bool.and_comm]

theorem filter_left_one (list gone : List OwnerId) (e : OwnerId) :
    list.filter (· ∉ gone ++ [e]) = (list.filter (· ∉ gone)).filter (· != e) := by
  rw [← filter_left]
  simp [bne, Bool.beq_eq_decide_eq]

theorem Graph.Rid.append (one : base.Rid gone graph next) (two : base.Rid more next last) :
    base.Rid (gone ++ more) graph last where
  owners e := by
    rw [two.owners, one.owners]
    by_cases second : e ∈ more
    · simp [second]
    · by_cases first : e ∈ gone
      · simp [first]
      · simp only [first, second, if_false, mem_append, or_self, Option.map_map, Function.comp_def, filter_left]
  cells c := by
    have split : base.cellsOf (gone ++ more) = base.cellsOf gone ++ base.cellsOf more := flatMap_append
    rw [two.cells, one.cells, split]
    by_cases second : c ∈ base.cellsOf more
    · simp [second]
    · by_cases first : c ∈ base.cellsOf gone
      · simp [first]
      · simp only [first, second, if_false, mem_append, or_self, Option.map_map, Function.comp_def, filter_left]
  queue_eq := by
    rw [two.queue_eq, one.queue_eq, filter_left]
  frame := by
    rw [two.frame, one.frame]

theorem Graph.Rid.named (rid : base.Rid gone graph next) (named : graph.Named) : next.Named := by
  intro p q found e mem
  rw [rid.owners] at found
  split at found
  · cases found
  · obtain ⟨old, there, rfl⟩ := map_eq_some_iff.mp found
    obtain ⟨listed, stays⟩ := mem_filter.mp mem
    obtain ⟨o, child, parent⟩ := named p old there e listed
    refine ⟨{ o with children := o.children.filter (· ∉ gone) }, ?_, parent⟩
    rw [rid.owners, if_neg (of_decide_eq_true stays), child]
    rfl

theorem Graph.Rid.sources (rid : base.Rid gone graph next) (sources : graph.Sources base more) : next.Sources base more := by
  intro e mem o there c slot found subscribed
  rw [rid.cells] at found
  split at found
  · cases found
  · obtain ⟨old, before, rfl⟩ := map_eq_some_iff.mp found
    exact sources e mem o there c old before (mem_filter.mp subscribed).1

theorem Graph.Rid.agrees (rid : base.Rid gone graph next) {o : Owner P ν} (there : graph.owners.get? e = some o) (stays : e ∉ gone)
    (apart : ∀ child ∈ o.children, child ∉ gone) : next.owners.get? e = some o := by
  have kept : o.children.filter (· ∉ gone) = o.children :=
    filter_eq_self.mpr fun child listed => decide_eq_true (apart child listed)
  rw [rid.owners, if_neg stays, there, map_some, kept]

theorem Graph.Named.resetOwner (named : graph.Named) (e : OwnerId) : (graph.resetOwner e).Named := by
  intro p q found child mem
  rw [graph.owners_resetOwner] at found
  obtain ⟨old, there, rfl⟩ := map_eq_some_iff.mp found
  have listed : child ∈ old.children := by
    split at mem
    · simp at mem
    · exact mem
  obtain ⟨_, born, parent⟩ := named p old there child listed
  rw [graph.owners_resetOwner, born]
  refine ⟨_, rfl, ?_⟩
  split <;> exact parent

theorem Graph.Rid.own {o : Owner P ν} (found : base.owners.get? e = some o) (here : graph.owners.get? e = some o)
    (named : graph.Named) (sources : graph.Sources base [e]) (apart : e ∉ gone)
    (below : base.Rid gone (graph.resetOwner e) next) :
    base.Rid (gone ++ [e]) graph ((next.release e o.sources o.cells).eraseOwner e) where
  owners x := by
    have parent : (next.owners.get? e).bind Owner.parent = o.parent := by
      rw [below.owners, if_neg apart, graph.owners_resetOwner, here]
      simp
    rw [Graph.owners_erased]
    show (if x = e then none else (next.owners.get? x).map fun o' =>
      if (next.owners.get? e).bind Owner.parent = some x then _ else o') = _
    rw [parent, below.owners, graph.owners_resetOwner]
    by_cases own : x = e
    · simp [own]
    · by_cases goes : x ∈ gone
      · simp [goes]
      · have stays : x ∉ gone ++ [e] := by simp [own, goes]
        rw [if_neg own, if_neg goes, if_neg stays]
        cases there : graph.owners.get? x with
        | none => rfl
        | some q =>
          simp only [map_some, if_neg own, filter_left_one]
          split
          · rfl
          · rename_i other
            have unlisted : e ∉ q.children := by
              intro listed
              obtain ⟨_, same, names⟩ := named x q there e listed
              obtain rfl := some.inj (here.symm.trans same)
              exact other names
            have kept : (q.children.filter (· ∉ gone)).filter (· != e) = q.children.filter (· ∉ gone) :=
              filter_eq_self.mpr fun child listed => bne_iff_ne.mpr fun same =>
                unlisted (same ▸ (mem_filter.mp listed).1)
            rw [kept]
  cells c := by
    have split : base.cellsOf (gone ++ [e]) = base.cellsOf gone ++ o.cells := by
      simp [Graph.cellsOf, found]
    show (next.release e o.sources o.cells).cells.get? c = _
    rw [Graph.cells_release, below.cells, split]
    show _ = if c ∈ base.cellsOf gone ++ o.cells then none else (graph.cells.get? c).map _
    by_cases owned : c ∈ o.cells
    · simp [owned]
    · by_cases beneath : c ∈ base.cellsOf gone
      · simp [beneath]
      · have stays : c ∉ base.cellsOf gone ++ o.cells := by simp [owned, beneath]
        rw [if_neg owned, if_neg beneath, if_neg stays]
        cases there : graph.cells.get? c with
        | none => simp [Graph.resetOwner, there]
        | some slot =>
          have first : (graph.resetOwner e).cells.get? c = some slot := there
          simp only [first, map_some, filter_left_one]
          split
          · rfl
          · rename_i unread
            have kept : (slot.subscribers.filter (· ∉ gone)).filter (· != e) = slot.subscribers.filter (· ∉ gone) :=
              filter_eq_self.mpr fun x reads => bne_iff_ne.mpr fun same =>
                unread (sources e (by simp) o found c slot there (same ▸ (mem_filter.mp reads).1))
            rw [kept]
  queue_eq := by
    show next.queue.filter (· != e) = _
    rw [below.queue_eq, filter_left_one]
    rfl
  frame := by
    have erased : ∀ middle : Graph P ν, middle.eraseOwner e =
        { middle with owners := (middle.eraseOwner e).owners, queue := (middle.eraseOwner e).queue } := fun _ => rfl
    rw [erased, below.frame]
    rfl

end Orders

section Runs

variable [BEq ν] {meaning : Interpretation P σ ν} {does : P Unit → σ → σ → Prop} {level : Nat} {graph base : Graph P ν}
  {outside : σ} {es gone : List OwnerId} {tasks : List (P Unit)}

/-- A task that does not touch the graph: whatever that is, the task comes to its end, leaves it as it is, and does
outside of it what is said. -/
def Aside (meaning : Interpretation P σ ν) (level : Nat) (does : P Unit → σ → σ → Prop) (task : P Unit) : Prop :=
  ∀ graph outside, (meaning task).Ensures meaning level graph outside
    fun _ graph' outside' => graph' = graph ∧ does task outside outside'

inductive InTurn (does : P Unit → σ → σ → Prop) : List (P Unit) → σ → σ → Prop where
  | nil (outside : σ) : InTurn does [] outside outside
  | cons {task : P Unit} {tasks : List (P Unit)} {first second third : σ} : does task first second →
      InTurn does tasks second third → InTurn does (task :: tasks) first third

theorem InTurn.append {more : List (P Unit)} {first second third : σ} (one : InTurn does tasks first second)
    (two : InTurn does more second third) : InTurn does (tasks ++ more) first third := by
  induction one with
  | nil => exact two
  | cons step _ ih => exact .cons step (ih two)

theorem ensures_tasks (asides : ∀ task ∈ tasks, Aside meaning level does task) :
    Ensures (level + 1) (fun fuel => tasks.forM fun task => run meaning fuel (.perform task)) graph outside
      fun _ graph' outside' => graph' = graph ∧ InTurn does tasks outside outside' := by
  induction tasks generalizing outside with
  | nil => exact .pure ⟨rfl, .nil outside⟩
  | cons task _ ih =>
    refine (asides task (by simp) graph outside).task.bind ?_
    rintro _ _ _ ⟨rfl, done⟩
    refine (ih fun task mem => asides task (mem_cons_of_mem _ mem)).mono ?_
    rintro _ _ _ ⟨rfl, rest⟩
    exact ⟨rfl, .cons done rest⟩

theorem ensures_clean_under {e : OwnerId} {o : Owner P ν} {below : List OwnerId} {inner : List (P Unit)}
    (found : graph.owners.get? e = some o) (asides : ∀ task ∈ o.cleanups, Aside meaning level does task)
    (children : Ensures (level + 1 + below.length)
      (fun fuel => o.children.reverse.forM fun child => run meaning fuel (.dispose child)) (graph.resetOwner e) outside
      fun _ next outside' => base.Rid below (graph.resetOwner e) next ∧ InTurn does inner outside outside') :
    Ensures (level + 1 + below.length) (fun fuel => Run.clean (run meaning fuel) e) graph outside
      fun _ next outside' => ∃ cleared, base.Rid below (graph.resetOwner e) cleared ∧
        next = cleared.release e o.sources o.cells ∧ InTurn does (inner ++ o.cleanups.reverse) outside outside' := by
  unfold Run.clean
  refine .see ?_
  rw [found]
  refine .alter (children.bind ?_)
  rintro _ cleared middle ⟨rid, before⟩
  have own : Ensures (level + 1 + below.length)
      (fun fuel => o.cleanups.reverse.forM fun task => run meaning fuel (.perform task)) cleared middle _ :=
    (ensures_tasks fun task mem => asides task (mem_reverse.mp mem)).raise (Nat.le_add_right _ _)
  refine own.bind ?_
  rintro _ _ _ ⟨rfl, after⟩
  exact fun _ history _ => ⟨_, _, _, history, rfl, _, rid, rfl, before.append after⟩

theorem ensures_sweep (sweep : base.Sweep es gone tasks) (once : gone.Nodup)
    (agrees : ∀ e ∈ gone, graph.owners.get? e = base.owners.get? e) (named : graph.Named) (sources : graph.Sources base gone)
    (asides : ∀ task ∈ tasks, Aside meaning level does task) :
    Ensures (level + 1 + gone.length) (fun fuel => es.forM fun e => run meaning fuel (.dispose e)) graph outside
      fun _ next outside' => base.Rid gone graph next ∧ InTurn does tasks outside outside' := by
  induction sweep generalizing graph outside with
  | nil => exact .pure ⟨.refl base graph, .nil outside⟩
  | @cons e o es below beside inner later found _ rest ihBelow ihBeside =>
    have here : graph.owners.get? e = some o := (agrees e (by simp)).trans found
    obtain ⟨onceBelow, onceBeside, apart⟩ := nodup_append.mp once
    obtain ⟨unequal, onceBeside⟩ := nodup_cons.mp onceBeside
    have fresh : e ∉ below := fun mem => apart e mem e mem_cons_self rfl
    have beneath : Ensures (level + 1 + below.length)
        (fun fuel => o.children.reverse.forM fun child => run meaning fuel (.dispose child)) (graph.resetOwner e) outside
        fun _ next outside' => base.Rid below (graph.resetOwner e) next ∧ InTurn does inner outside outside' := by
      refine ihBelow onceBelow (fun x mem => ?_) (named.resetOwner e) (fun x mem => sources x (by simp [mem]))
        fun task mem => asides task (by simp [mem])
      have other : x ≠ e := fun same => fresh (same ▸ mem)
      rw [graph.owners_resetOwner, agrees x (by simp [mem])]
      simp [other]
    have first : Ensures (level + 1 + below.length + 1) (fun fuel => run meaning fuel (.dispose e)) graph outside
        fun _ next outside' => base.Rid (below ++ [e]) graph next ∧ InTurn does (inner ++ o.cleanups.reverse) outside outside' := by
      refine .job ((ensures_clean_under here (fun task mem => asides task (by simp [mem])) beneath).bind ?_)
      rintro _ _ _ ⟨_, rid, rfl, done⟩
      have gone := rid.own found here named (fun x mem => sources x (by simp [mem_singleton.mp mem])) fresh
      exact fun _ history _ => ⟨_, _, _, history, rfl, gone, done⟩
    have total : (below ++ e :: beside).length = below.length + 1 + beside.length := by simp; omega
    rw [total]
    refine (first.raise (by omega)).bind ?_
    rintro _ next middle ⟨gone, done⟩
    have later : Ensures (level + 1 + beside.length) (fun fuel => es.forM fun e => run meaning fuel (.dispose e)) next middle
        fun _ last outside' => base.Rid beside next last ∧ InTurn does later middle outside' := by
      refine ihBeside onceBeside (fun x mem => ?_) (gone.named named)
        (gone.sources fun x mem => sources x (by simp [mem])) fun task mem => asides task (by simp [mem])
      have out : ∀ y ∈ beside, y ∉ below ++ [e] := by
        intro y member goes
        rcases mem_append.mp goes with under | own
        · exact apart y under y (mem_cons_of_mem _ member) rfl
        · exact unequal (mem_singleton.mp own ▸ member)
      obtain ⟨_, there, within⟩ := rest.closed mem
      rw [there]
      exact gone.agrees ((agrees x (by simp [mem])).trans there) (out x mem) fun child listed => out child (within listed)
    refine (later.raise (by omega)).mono ?_
    rintro _ _ _ ⟨more, after⟩
    have whole := gone.append more
    rw [append_assoc, singleton_append] at whole
    exact ⟨whole, done.append after⟩

theorem ensures_dispose_sweep {top : OwnerId} (sweep : graph.Sweep [top] gone tasks) (once : gone.Nodup) (named : graph.Named)
    (sources : graph.Sources graph gone) (asides : ∀ task ∈ tasks, Aside meaning level does task) :
    (Program.perform (.dispose top)).Ensures meaning (level + 1 + gone.length) graph outside fun _ next outside' =>
      graph.Rid gone graph next ∧ InTurn does tasks outside outside' := by
  have ran : Ensures (level + 1 + gone.length) (fun fuel => [top].forM fun e => run meaning fuel (.dispose e)) graph outside
      fun _ next outside' => graph.Rid gone graph next ∧ InTurn does tasks outside outside' :=
    ensures_sweep sweep once (fun _ _ => rfl) named sources asides
  refine Program.ensures_perform fun fuel history enough => ?_
  -- the command does what the job does that has one more to spend
  obtain ⟨result, next, outside', history', eq, rid, done⟩ := ran (fuel + 1) history (Nat.le_succ_of_le enough)
  have alone : [top].forM (fun e => (run meaning (fuel + 1) (.dispose e) : Run P σ ν Unit)) =
      Run.command (run meaning fuel) (.dispose top) := bind_pure_unit
  exact ⟨result, next, outside', history', (congrFun alone _).symm.trans eq, rid, done⟩

end Runs

section Subtrees

variable {graph next : Graph P ν} {top p e x : OwnerId} {q o : Owner P ν}

theorem Table.bounded {α : Type} (table : Table α) : ∃ bound, ∀ key value, table.get? key = some value → key < bound := by
  obtain ⟨entries⟩ := table
  show ∃ bound, ∀ key value, find? key entries = some value → key < bound
  induction entries with
  | nil => exact ⟨0, fun key value found => by cases found⟩
  | cons entry _ ih =>
    obtain ⟨bound, below⟩ := ih
    refine ⟨max bound (entry.1 + 1), fun key value found => ?_⟩
    rw [find?] at found
    split at found
    · omega
    · exact (below key value found).trans_le (Nat.le_max_left ..)

theorem Graph.Linked.parent_unique {p' : OwnerId} {q' : Owner P ν} (linked : graph.Linked) (found : graph.owners.get? p = some q)
    (mem : e ∈ q.children) (found' : graph.owners.get? p' = some q') (inside' : e ∈ q'.children) : p = p' := by
  obtain ⟨_, there, parent⟩ := (linked.children p q found e).mp mem
  obtain ⟨_, there', parent'⟩ := (linked.children p' q' found' e).mp inside'
  obtain rfl := some.inj (there.symm.trans there')
  exact some.inj (parent.symm.trans parent')

theorem Graph.Under.le (linked : graph.Linked) (under : graph.Under top e) : top ≤ e := by
  induction under with
  | top => exact le_rfl
  | listed _ found mem ih => exact (ih.trans_lt (linked.younger _ _ found _ mem)).le

theorem Graph.Under.of_child (under : graph.Under e x) (alive : graph.ownerAlive top = true) (found : graph.owners.get? top = some q)
    (mem : e ∈ q.children) : graph.Under top x := (Graph.Under.listed (.top alive) found mem).trans under

theorem Graph.Linked.under_iff (linked : graph.Linked) (found : graph.owners.get? top = some q) :
    graph.Under top x ↔ x = top ∨ ∃ e ∈ q.children, graph.Under e x := by
  have alive : graph.ownerAlive top = true := isSome_iff_exists.mpr ⟨q, found⟩
  constructor
  · intro under
    induction under with
    | top => exact .inl rfl
    | @listed p x q' _ there mem ih =>
      obtain ⟨o, born, _⟩ := (linked.children p q' there x).mp mem
      rcases ih with rfl | ⟨e, child, below⟩
      · obtain rfl := some.inj (found.symm.trans there)
        exact .inr ⟨x, mem, .top (isSome_iff_exists.mpr ⟨o, born⟩)⟩
      · exact .inr ⟨e, child, .listed below there mem⟩
  · rintro (rfl | ⟨_, child, below⟩)
    · exact .top alive
    · exact below.of_child alive found child

theorem Graph.Linked.apart {e' : OwnerId} (linked : graph.Linked) (found : graph.owners.get? p = some q) (one : e ∈ q.children)
    (two : e' ∈ q.children) (other : e ≠ e') (under : graph.Under e x) : ¬ graph.Under e' x := by
  -- a child is below another child only if its parent is, which is older than both
  have clear : ∀ {c c'}, c ∈ q.children → c' ∈ q.children → ∀ {p' q'}, graph.owners.get? p' = some q' → c' ∈ q'.children →
      ¬ graph.Under c p' := by
    intro c c' child child' p' q' there mem above
    obtain rfl := linked.parent_unique found child' there mem
    exact absurd (above.le linked) (linked.younger _ _ found _ child).not_ge
  induction under with
  | top =>
    intro under
    cases under with
    | top => exact other rfl
    | listed above there mem => exact clear two one there mem above
  | listed above there mem ih =>
    intro under
    cases under with
    | top => exact clear one two there mem above
    | listed above' there' inside' =>
      obtain rfl := linked.parent_unique there mem there' inside'
      exact ih above'

theorem sweeps_of_each {es : List OwnerId} (once : es.Nodup)
    (apart : ∀ e ∈ es, ∀ e' ∈ es, e ≠ e' → ∀ x, graph.Under e x → ¬ graph.Under e' x)
    (each : ∀ e ∈ es, ∃ gone tasks, graph.Sweep [e] gone tasks ∧ gone.Nodup ∧ ∀ x, x ∈ gone ↔ graph.Under e x) :
    ∃ gone tasks, graph.Sweep es gone tasks ∧ gone.Nodup ∧ ∀ x, x ∈ gone ↔ ∃ e ∈ es, graph.Under e x := by
  induction es with
  | nil => exact ⟨[], [], .nil, .nil, by simp⟩
  | cons e es ih =>
    obtain ⟨fresh, once⟩ := nodup_cons.mp once
    obtain ⟨beside, later, rest, onceBeside, mem⟩ := ih once
      (fun a inA b inB => apart a (mem_cons_of_mem _ inA) b (mem_cons_of_mem _ inB))
      fun a inside => each a (mem_cons_of_mem _ inside)
    obtain ⟨gone, tasks, first, onceGone, memGone⟩ := each e mem_cons_self
    have whole : graph.Sweep (e :: es) (gone ++ beside) (tasks ++ later) := by
      cases first with
      | cons found below nothing =>
        cases nothing
        simpa using Graph.Sweep.cons found below rest
    refine ⟨_, _, whole, nodup_append.mpr ⟨onceGone, onceBeside, ?_⟩, fun x => ?_⟩
    · rintro x under _ beyond rfl
      obtain ⟨e', inside, under'⟩ := (mem x).mp beyond
      exact apart e mem_cons_self e' (mem_cons_of_mem _ inside) (fun same => fresh (same ▸ inside)) x
        ((memGone x).mp under) under'
    · simp [mem, memGone]

theorem Graph.Linked.sweeps (linked : graph.Linked) (alive : graph.ownerAlive top = true) :
    ∃ gone tasks, graph.Sweep [top] gone tasks ∧ gone.Nodup ∧ ∀ x, x ∈ gone ↔ graph.Under top x := by
  obtain ⟨bound, below⟩ := bounded graph.owners
  -- children are younger, so that there is less and less room above an owner
  induction room : bound - top using Nat.strongRecOn generalizing top with
  | _ size ih =>
    obtain ⟨o, found⟩ := isSome_iff_exists.mp alive
    have each : ∀ e ∈ o.children.reverse,
        ∃ gone tasks, graph.Sweep [e] gone tasks ∧ gone.Nodup ∧ ∀ x, x ∈ gone ↔ graph.Under e x := by
      intro e inside
      have child := mem_reverse.mp inside
      obtain ⟨born, there, _⟩ := (linked.children top o found e).mp child
      have young := linked.younger top o found e child
      have high := below e born there
      exact ih (bound - e) (by omega) (isSome_iff_exists.mpr ⟨born, there⟩) rfl
    obtain ⟨gone, _, sweep, once, mem⟩ := sweeps_of_each (nodup_reverse.mpr (linked.once top o found))
      (fun e inE e' inE' other x => linked.apart found (mem_reverse.mp inE) (mem_reverse.mp inE') other) each
    refine ⟨gone ++ [top], _, .cons found sweep .nil, nodup_append.mpr ⟨once, by simp, ?_⟩, fun x => ?_⟩
    · rintro x inside _ single rfl
      obtain ⟨e, child, under⟩ := (mem x).mp inside
      rw [mem_singleton.mp single] at under
      have young := linked.younger top o found e (mem_reverse.mp child)
      exact absurd (under.le linked) young.not_ge
    · rw [linked.under_iff found, mem_append, mem_singleton, mem]
      simp only [mem_reverse]
      exact or_comm

/-- What disposing an owner takes out of a graph: those who are `gone`, their cells, their subscriptions, their places in the
queue, and `top` from the list of its parent. Everything else is as it was. -/
structure Graph.Removed (graph : Graph P ν) (top : OwnerId) (gone : List OwnerId) (next : Graph P ν) : Prop where
  owners_gone : ∀ e ∈ gone, next.owners.get? e = none
  owners_left : ∀ e ∉ gone, next.owners.get? e = (graph.owners.get? e).map fun o =>
    if (graph.owners.get? top).bind Owner.parent = some e then { o with children := o.children.filter (· != top) } else o
  cells_gone : ∀ e ∈ gone, ∀ o, graph.owners.get? e = some o → ∀ c ∈ o.cells, next.cells.get? c = none
  cells_left : ∀ c, (∀ e ∈ gone, ∀ o, graph.owners.get? e = some o → c ∉ o.cells) →
    next.cells.get? c = (graph.cells.get? c).map fun slot => { slot with subscribers := slot.subscribers.filter (· ∉ gone) }
  queue_eq : next.queue = graph.queue.filter (· ∉ gone)
  rest_eq : next = { graph with owners := next.owners, cells := next.cells, queue := next.queue }

theorem Graph.Rid.removed {gone : List OwnerId} (linked : graph.Linked) (alive : graph.ownerAlive top = true)
    (mem : ∀ x, x ∈ gone ↔ graph.Under top x) (rid : graph.Rid gone graph next) : graph.Removed top gone next where
  owners_gone e inside := by rw [rid.owners, if_pos inside]
  owners_left e stays := by
    rw [rid.owners, if_neg stays]
    cases found : graph.owners.get? e with
    | none => rfl
    | some o =>
      -- whoever stays and lists somebody who goes is the parent of the topmost
      have listed : ∀ x ∈ o.children, x ∈ gone → x = top := by
        intro x child goes
        cases (mem x).mp goes with
        | top => rfl
        | listed above there inside =>
          obtain rfl := linked.parent_unique there inside found child
          exact absurd ((mem _).mpr above) stays
      have self : top ∈ gone := (mem top).mpr (.top alive)
      have same : o.children.filter (· ∉ gone) = o.children.filter (· != top) := by
        refine filter_congr fun x child => ?_
        by_cases here : x = top
        · simp [here, self]
        · have stays : x ∉ gone := fun goes => here (listed x child goes)
          simp [here, stays]
      rw [map_some, map_some, same]
      split
      · rfl
      · rename_i elsewhere
        have unlisted : top ∉ o.children := by
          intro child
          obtain ⟨_, born, parent⟩ := (linked.children e o found top).mp child
          exact elsewhere (by rw [born, bind_some, parent])
        have kept : o.children.filter (· != top) = o.children :=
          filter_eq_self.mpr fun x child => bne_iff_ne.mpr fun here => unlisted (here ▸ child)
        rw [kept]
  cells_gone e inside o found c owned := by
    have dropped : c ∈ graph.cellsOf gone := mem_flatMap.mpr ⟨e, inside, by simpa [found] using owned⟩
    rw [rid.cells, if_pos dropped]
  cells_left c free := by
    have kept : c ∉ graph.cellsOf gone := by
      intro inside
      obtain ⟨e, goes, owned⟩ := mem_flatMap.mp inside
      cases found : graph.owners.get? e with
      | none => simp [found] at owned
      | some o => exact free e goes o found (by simpa [found] using owned)
    rw [rid.cells, if_neg kept]
  queue_eq := rid.queue_eq
  rest_eq := rid.frame

section Disposing

variable [BEq ν] {meaning : Interpretation P σ ν} {does : P Unit → σ → σ → Prop} {level : Nat}

/-- Disposing an owner removes exactly its subtree, if owners and cells know of each other and no cleanup in the subtree
touches the graph. There is one order in which its owners go and its cleanups are done, each once: first those of its
children, from the newest to the oldest, and then its own, likewise. -/
theorem dispose_removes_subtree (outside : σ) (linked : graph.Linked) (alive : graph.ownerAlive top = true)
    (asides : ∀ e o, graph.Under top e → graph.owners.get? e = some o → ∀ task ∈ o.cleanups, Aside meaning level does task) :
    ∃ gone tasks, (∀ es ts, graph.Sweep [top] es ts ↔ es = gone ∧ ts = tasks) ∧ gone.Nodup ∧
      (∀ e, e ∈ gone ↔ graph.Under top e) ∧
      (Program.perform (.dispose top)).Ensures meaning (level + 1 + gone.length) graph outside fun _ next outside' =>
        graph.Removed top gone next ∧ InTurn does tasks outside outside' := by
  obtain ⟨gone, tasks, sweep, once, mem⟩ := linked.sweeps alive
  refine ⟨gone, tasks, fun es ts => ⟨sweep.unique, fun same => same.1 ▸ same.2 ▸ sweep⟩, once, mem, ?_⟩
  have asides' : ∀ task ∈ tasks, Aside meaning level does task := by
    intro task inside
    obtain ⟨e, goes, o, found, own⟩ := sweep.cleanup inside
    exact asides e o ((mem e).mp goes) found task own
  refine (ensures_dispose_sweep sweep once (fun p q found e inside => (linked.children p q found e).mp inside)
    (fun e _ o found c slot there reads => (linked.subscriptions c slot there e o found).mp reads) asides').mono ?_
  rintro _ _ _ ⟨rid, done⟩
  exact ⟨rid.removed linked alive mem, done⟩

end Disposing

end Subtrees

inductive Saying : Type → Type where
  | say (word : String) : Saying Unit

def Saying.meaning : Interpretation Saying (List String) Nat
  | _, .say word => Program.altering (· ++ [word])

def Saying.does : Saying Unit → List String → List String → Prop
  | .say word, before, after => after = before ++ [word]

/-- A root over an owner with two children, and a root that reads what a child of the other reads. -/
def twoFamilies : Graph Saying Nat where
  nextId := 9
  owners := ⟨[
    (1, { parent := none, body := none, children := [2], cells := [8] }),
    (2, { parent := some 1, body := none, children := [4, 5], cleanups := [.say "first", .say "second"], cells := [3] }),
    (4, { parent := some 2, body := some (.effect (.say "four")), cleanups := [.say "third"], sources := [8, 3] }),
    (5, { parent := some 2, body := some (.effect (.say "five")), cleanups := [.say "fourth"] }),
    (6, { parent := none, body := some (.effect (.say "six")), sources := [8] })]⟩
  cells := ⟨[(3, { value := some 0, subscribers := [4] }), (8, { value := some 1, subscribers := [4, 6] })]⟩
  queue := [4, 6]

theorem linked_twoFamilies : twoFamilies.Linked := by
  have parents : ∀ entry ∈ twoFamilies.owners.entries, ∀ e ∈ entry.2.children,
      (twoFamilies.owners.get? e).map Owner.parent = some (some entry.1) := by decide
  have children : ∀ entry ∈ twoFamilies.owners.entries, ∀ p ∈ entry.2.parent, ∀ q ∈ twoFamilies.owners.get? p,
      entry.1 ∈ q.children := by decide
  have lists : ∀ entry ∈ twoFamilies.owners.entries, entry.2.children.Nodup ∧ ∀ e ∈ entry.2.children, entry.1 < e := by decide
  have subscriptions : ∀ slot ∈ twoFamilies.cells.entries, ∀ entry ∈ twoFamilies.owners.entries,
      (entry.1 ∈ slot.2.subscribers ↔ slot.1 ∈ entry.2.sources) := by decide
  refine ⟨fun p q found e => ⟨fun mem => ?_, ?_⟩, fun p q found => (lists _ (mem_of_get? found)).1,
    fun p q found => (lists _ (mem_of_get? found)).2,
    fun c slot found e o there => subscriptions _ (mem_of_get? found) _ (mem_of_get? there)⟩
  · exact map_eq_some_iff.mp (parents _ (mem_of_get? found) e mem)
  · rintro ⟨_, there, parent⟩
    exact children _ (mem_of_get? there) p parent q found

/-- With the second owner go its children and its cell, and its cleanups come last. The others keep what they have. -/
theorem dispose_removes_subtree_twoFamilies : ∃ next history,
    (Program.perform (.dispose 2)).execute Saying.meaning 9 ⟨twoFamilies, [], []⟩ =
      .ok () ⟨next, ["fourth", "third", "second", "first"], history⟩ ∧
    next.queue = [6] ∧ (next.owners.get? 1).map Owner.children = some [] ∧ next.cells.get? 3 = none ∧
    (next.cells.get? 8).map Cell.subscribers = some [6] := by
  have asides : ∀ e o, twoFamilies.Under 2 e → twoFamilies.owners.get? e = some o → ∀ task ∈ o.cleanups,
      Aside Saying.meaning 0 Saying.does task := fun _ _ _ _ task _ graph said => by
    cases task with
    | say word => exact Program.ensures_changing ⟨rfl, rfl⟩
  obtain ⟨gone, tasks, order, -, -, ran⟩ := dispose_removes_subtree [] linked_twoFamilies rfl asides
  have children : twoFamilies.Sweep [5, 4] [5, 4] [.say "fourth", .say "third"] := by
    have four : twoFamilies.Sweep [4] _ _ := .cons rfl .nil .nil
    have five : twoFamilies.Sweep [5, 4] _ _ := .cons rfl .nil four
    exact five
  have sweep : twoFamilies.Sweep [2] [5, 4, 2] [.say "fourth", .say "third", .say "second", .say "first"] := by
    have two : twoFamilies.Sweep [2] _ _ := .cons rfl children .nil
    exact two
  obtain ⟨rfl, rfl⟩ := (order _ _).mp sweep
  obtain ⟨_, next, said, history, returns, removed, turns⟩ := ran 9 [] (by decide)
  have all : said = ["fourth", "third", "second", "first"] := by
    cases turns with | cons one turns => cases turns with | cons two turns => cases turns with | cons three turns =>
      cases turns with | cons four turns => cases turns; rw [four, three, two, one]; rfl
  subst all
  refine ⟨next, history, returns, removed.queue_eq, ?_, removed.cells_gone 2 (by decide) _ rfl 3 (by decide), ?_⟩
  · rw [removed.owners_left 1 (by decide)]
    rfl
  · rw [removed.cells_left 8 (by decide)]
    rfl

end LiveMarkup.Reactive
