import LiveMarkup.Reactive.Run
import Mathlib.Tactic.TypeStar

/-!
What holds of every program because it holds of the steps that programs are made of. A relation between runs that is kept
where one run follows another is shown for reads, writes and updates of cells from the few changes of the graph that these
make, and then for programs by induction. A property of runs is a relation that does not look at the second run.
-/

namespace LiveMarkup.Reactive
open Run

variable {P : Type → Type} {σ ν : Type} {R : ∀ {α : Type}, Run P σ ν α → Run P σ ν α → Prop} {β ι : Type}
  {cell : CellId}

/-- A relation that is kept where one run follows another. -/
structure RunRules (R : ∀ {α : Type}, Run P σ ν α → Run P σ ν α → Prop) : Prop where
  pure : ∀ {α : Type} (value : α), R (Pure.pure value) (Pure.pure value)
  throw : ∀ {α : Type} (why : Fault), R (MonadExcept.throw why : Run P σ ν α) (MonadExcept.throw why)
  bind : ∀ {α β : Type} {first first' : Run P σ ν α} {after after' : α → Run P σ ν β}, R first first' →
    (∀ value, R (after value) (after' value)) → R (first >>= after) (first' >>= after')
  seeGraph : ∀ {ι : Type} (view : Graph P ν → ι), R (Run.seeGraph view) (Run.seeGraph view)

theorem RunRules.all {κ : Sort*} {S : κ → ∀ {α : Type}, Run P σ ν α → Run P σ ν α → Prop} (rules : ∀ k, RunRules (S k)) :
    RunRules fun (run other : Run P σ ν _) => ∀ k, S k run other where
  pure value k := (rules k).pure value
  throw why k := (rules k).throw why
  bind one two k := (rules k).bind (one k) fun value => two value k
  seeGraph view k := (rules k).seeGraph view

section

variable (rules : RunRules R)
include rules

theorem RunRules.throw_bind {α : Type} (why : Fault) (after after' : α → Run P σ ν β) :
    R ((MonadExcept.throw why : Run P σ ν α) >>= after) ((MonadExcept.throw why : Run P σ ν α) >>= after') := rules.throw why

theorem RunRules.see (view : Graph P ν → ι) {after after' : ι → Run P σ ν β}
    (related : ∀ value, R (after value) (after' value)) : R (Run.seeGraph view >>= after) (Run.seeGraph view >>= after') :=
  rules.bind (rules.seeGraph view) related

theorem RunRules.forM {γ : Type} (step step' : γ → Run P σ ν Unit)
    (related : ∀ item, R (step item) (step' item)) (items : List γ) : R (items.forM step) (items.forM step') := by
  induction items with
  | nil => exact rules.pure ()
  | cons item _ ih => exact rules.bind (related item) fun _ => ih

theorem RunRules.notify (one two : Runner P σ ν)
    (queues : R (alterGraph (·.enqueueSubscribers cell)) (alterGraph (·.enqueueSubscribers cell)))
    (flushes : R (flush one) (flush two)) : R (notify one cell) (notify two cell) := by
  refine rules.see _ fun alive => ?_
  split
  · refine rules.bind queues fun _ => rules.see _ fun depth => ?_
    split
    · exact flushes
    · exact rules.pure ()
  · exact rules.pure ()

theorem RunRules.write (one two : Runner P σ ν) {value : ν}
    (announces : R (Run.store cell value >>= fun _ => Run.notify one cell) (Run.store cell value >>= fun _ => Run.notify two cell)) :
    R (Run.write one cell value) (Run.write two cell value) := by
  refine rules.see _ fun found => ?_
  cases found with
  | none => exact rules.pure ()
  | some =>
    dsimp only
    split
    · exact rules.throw_bind _ _ _
    · exact announces

theorem RunRules.runBody [BEq ν] (one two : Runner P σ ν) {body : Body P ν}
    (performs : ∀ {ι : Type} (task : P ι), R (one (.perform task)) (two (.perform task)))
    (stores : ∀ cell value, R (Run.store cell value) (Run.store cell value))
    (writes : ∀ cell value, R (Run.write one cell value) (Run.write two cell value)) :
    R (Run.runBody one body) (Run.runBody two body) := by
  cases body with
  | effect task => exact performs task
  | computed cell task =>
    refine rules.bind (performs task) fun value => rules.see _ fun found => ?_
    cases found with
    | none => exact rules.pure ()
    | some =>
      dsimp only
      split
      · exact stores cell value
      · split
        · exact rules.throw_bind _ _ _
        · split
          · exact rules.pure ()
          · exact writes cell value

theorem RunRules.newComputed (one two : Runner P σ ν) {task : P ν}
    (cells : R (changeGraph (·.newCell none)) (changeGraph (·.newCell none)))
    (reactions : ∀ cell, R (newReaction one (.computed cell task)) (newReaction two (.computed cell task))) :
    R (newComputed one task) (newComputed two task) :=
  rules.bind cells fun cell => rules.bind (reactions cell) fun _ => rules.pure cell

theorem RunRules.read {tracked : Bool} (tracks : R (Run.alterGraph (·.track cell)) (Run.alterGraph (·.track cell)))
    (notes : ∀ e, R (Run.note (.read e cell)) (Run.note (.read e cell))) : R (Run.read tracked cell) (Run.read tracked cell) := by
  have noted : R (Run.noteRead cell) (Run.noteRead cell) := by
    refine rules.see _ fun observer => ?_
    cases observer with
    | none => exact rules.pure ()
    | some e => exact notes e
  have looked : R (Run.read false cell) (Run.read false cell) := by
    refine rules.see _ fun found => ?_
    cases found with
    | none => exact rules.pure none
    | some slot =>
      dsimp only
      split
      · exact rules.throw_bind _ _ _
      · exact rules.pure slot.value
  cases tracked with
  | false => exact looked
  | true =>
    refine rules.bind tracks fun _ => rules.see _ fun found => ?_
    cases found with
    | none => exact rules.pure none
    | some slot =>
      dsimp only
      split
      · exact rules.throw_bind _ _ _
      · split
        · exact rules.bind noted fun _ => rules.pure slot.value
        · exact rules.pure slot.value

theorem RunRules.updateCell (one two : Runner P σ ν) (body body' : ν → Run P σ ν ν) (updates : ∀ old, R
      (do Run.alterGraph (·.setInUse cell true)
          let value ← body old
          Run.store cell value
          Run.alterGraph (·.setInUse cell false)
          Run.notify one cell)
      (do Run.alterGraph (·.setInUse cell true)
          let value ← body' old
          Run.store cell value
          Run.alterGraph (·.setInUse cell false)
          Run.notify two cell)) :
    R (Run.updateCell one cell body) (Run.updateCell two cell body') := by
  refine rules.see _ fun found => ?_
  cases found with
  | none => exact rules.pure ()
  | some =>
    dsimp only
    split
    · exact rules.throw_bind _ _ _
    · split
      · exact rules.pure ()
      · exact updates _

end

section Programs

variable {one two : Runner P σ ν}

/-- What has to be known of the commands that change something, of the settings and of updates. -/
structure RunSteps (R : ∀ {α : Type}, Run P σ ν α → Run P σ ν α → Prop) (one two : Runner P σ ν) : Prop extends RunRules R where
  state : ∀ {ι : Type} (change : σ → ι × σ), R (Run.command one (.state change)) (Run.command two (.state change))
  perform : ∀ {ι : Type} (task : P ι), R (one (.perform task)) (two (.perform task))
  newSignal : ∀ value : ν, R (Run.command one (.newSignal value)) (Run.command two (.newSignal value))
  newComputed : ∀ task : P ν, R (Run.newComputed one task) (Run.newComputed two task)
  newEffect : ∀ task : P Unit, R (Run.newReaction one (.effect task)) (Run.newReaction two (.effect task))
  newRoot : R (Run.command one .newRoot) (Run.command two .newRoot)
  onDispose : ∀ task : P Unit, R (Run.command one (.onDispose task)) (Run.command two (.onDispose task))
  dispose : ∀ e, R (Run.dispose one e) (Run.dispose two e)
  read : ∀ tracked cell, R (Run.read tracked cell) (Run.read tracked cell)
  write : ∀ cell value, R (Run.write one cell value) (Run.write two cell value)
  inBatch : ∀ {ι : Type} {body body' : Run P σ ν ι}, R body body' → R (Run.inBatch one body) (Run.inBatch two body')
  unobserved : ∀ {ι : Type} {body body' : Run P σ ν ι} (owner : Option OwnerId), R body body' →
    R (Run.inContext owner none body) (Run.inContext owner none body')
  update : ∀ {cell : CellId} {body body' : ν → Run P σ ν ν}, (∀ old, R (body old) (body' old)) →
    R (Run.updateCell one cell body) (Run.updateCell two cell body')

theorem RunSteps.command (steps : RunSteps R one two) (command : Command P σ ν ι) :
    R (Run.command one command) (Run.command two command) := by
  cases command with
  | state change => exact steps.state change
  | call task => exact steps.perform task
  | newSignal value => exact steps.newSignal value
  | newComputed task => exact steps.newComputed task
  | newEffect task => exact steps.newEffect task
  | newRoot => exact steps.newRoot
  | onDispose task => exact steps.onDispose task
  | dispose owner => exact steps.dispose owner
  | read tracked cell => exact steps.read tracked cell
  | write cell value => exact steps.write cell value
  | cellAlive cell => exact steps.seeGraph (·.cellAlive cell)
  | ownerAlive owner => exact steps.seeGraph (·.ownerAlive owner)
  | currentOwner => exact steps.seeGraph Graph.owner
  | tracking => exact steps.seeGraph (·.observer.isSome)

theorem RunSteps.inSetting (steps : RunSteps R one two) (setting : Setting) {body body' : Run P σ ν ι}
    (related : R body body') : R (inSetting one setting body) (inSetting two setting body') := by
  cases setting with
  | batch => exact steps.inBatch related
  | untracked => exact steps.see _ fun owner => steps.unobserved owner related
  | ownedBy owner => exact steps.unobserved (some owner) related

theorem RunSteps.program (steps : RunSteps R one two) {α : Type} (program : Program P σ ν α) :
    R (program.run one) (program.run two) := by
  induction program with
  | done result => exact steps.pure result
  | fault why => exact steps.throw why
  | command c _ ih => exact steps.bind (steps.command c) ih
  | within setting _ _ inner ih => exact steps.bind (steps.inSetting setting inner) ih
  | update _ _ _ inner ih => exact steps.bind (steps.update inner) fun _ => ih

end Programs

end LiveMarkup.Reactive
