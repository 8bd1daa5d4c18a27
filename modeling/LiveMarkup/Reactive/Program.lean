import LiveMarkup.Fault
import LiveMarkup.Reactive.Graph

/-!
Programs over the reactive graph. A program is a tree of commands, each with what follows for every answer,
so that statements about all programs go by induction. `P` is the type of tasks, which are run by name, `σ` the
state outside the graph and `ν` the type of values.
-/

namespace LiveMarkup.Reactive

/-- The commands that have no part of the program inside them. -/
inductive Command (P : Type → Type) (σ ν : Type) : Type → Type 1 where
  /-- Looks at the state outside the graph and changes it. -/
  | state {ι : Type} (change : σ → ι × σ) : Command P σ ν ι
  /-- Runs a task and takes its result. -/
  | call {ι : Type} (task : P ι) : Command P σ ν ι
  | newSignal (value : ν) : Command P σ ν CellId
  | newComputed (task : P ν) : Command P σ ν CellId
  | newEffect (task : P Unit) : Command P σ ν OwnerId
  | newRoot : Command P σ ν OwnerId
  /-- Leaves a task to be done when the current owner is cleaned. -/
  | onDispose (task : P Unit) : Command P σ ν Unit
  | dispose (owner : OwnerId) : Command P σ ν Unit
  /-- The value of a cell, if it is still there. A tracked read subscribes the current observer. -/
  | read (tracked : Bool) (cell : CellId) : Command P σ ν (Option ν)
  /-- Gives a cell a value and lets its subscribers run; a cell that is gone is left alone. -/
  | write (cell : CellId) (value : ν) : Command P σ ν Unit
  | cellAlive (cell : CellId) : Command P σ ν Bool
  | ownerAlive (owner : OwnerId) : Command P σ ν Bool
  | currentOwner : Command P σ ν (Option OwnerId)
  | tracking : Command P σ ν Bool

inductive Setting where
  /-- Reactions wait until the end of the outermost batch. -/
  | batch
  /-- Reads subscribe nobody. -/
  | untracked
  /-- What is made belongs to an owner, and reads subscribe nobody. -/
  | ownedBy (owner : OwnerId)
  deriving Repr, BEq, DecidableEq

inductive Program (P : Type → Type) (σ ν : Type) : Type → Type 1 where
  | done {α : Type} (result : α) : Program P σ ν α
  | fault {α : Type} (why : Fault) : Program P σ ν α
  | command {ι α : Type} (command : Command P σ ν ι) (next : ι → Program P σ ν α) : Program P σ ν α
  | within {ι α : Type} (setting : Setting) (body : Program P σ ν ι) (next : ι → Program P σ ν α) : Program P σ ν α
  /-- Computes a cell's value from the old one. Nothing may use the cell meanwhile. -/
  | update {α : Type} (cell : CellId) (body : ν → Program P σ ν ν) (next : Program P σ ν α) : Program P σ ν α

namespace Program

variable {P : Type → Type} {σ ν : Type}

def bind {α β : Type} : Program P σ ν α → (α → Program P σ ν β) → Program P σ ν β
  | .done result, f => f result
  | .fault why, _ => .fault why
  | .command c next, f => .command c fun a => (next a).bind f
  | .within setting body next, f => .within setting body fun a => (next a).bind f
  | .update cell body next, f => .update cell body (next.bind f)

instance : Monad (Program P σ ν) where
  pure := .done
  bind := bind

theorem bind_done {α : Type} (program : Program P σ ν α) : program.bind .done = program := by
  induction program <;> simp_all only [bind]

theorem bind_bind {α β γ : Type} (program : Program P σ ν α) (next : α → Program P σ ν β) (last : β → Program P σ ν γ) :
    (program.bind next).bind last = program.bind fun result => (next result).bind last := by
  induction program <;> simp_all only [bind]

instance : LawfulMonad (Program P σ ν) := .mk' _ bind_done (fun _ _ => rfl) bind_bind

def perform {ι : Type} (c : Command P σ ν ι) : Program P σ ν ι := .command c .done

def changing {ι : Type} (change : σ → ι × σ) : Program P σ ν ι := perform (.state change)

def seeing {ι : Type} (view : σ → ι) : Program P σ ν ι := changing fun s => (view s, s)

def altering (change : σ → σ) : Program P σ ν Unit := changing fun s => ((), change s)

def call {ι : Type} (task : P ι) : Program P σ ν ι := perform (.call task)

def batch {ι : Type} (body : Program P σ ν ι) : Program P σ ν ι := .within .batch body .done

def untracked {ι : Type} (body : Program P σ ν ι) : Program P σ ν ι := .within .untracked body .done

def ownedBy {ι : Type} (owner : OwnerId) (body : Program P σ ν ι) : Program P σ ν ι := .within (.ownedBy owner) body .done

/-- Runs a program under a new root, which lives until it is disposed. -/
def underRoot {ι : Type} (body : Program P σ ν ι) : Program P σ ν (ι × OwnerId) := do
  let root ← perform .newRoot
  let result ← ownedBy root body
  return (result, root)

def updateCell (cell : CellId) (body : ν → Program P σ ν ν) : Program P σ ν Unit := .update cell body (.done ())

def get (tracked : Bool) (cell : CellId) : Program P σ ν ν := do
  match ← perform (.read tracked cell) with
  | some value => return value
  | none => .fault .disposedRead

end Program
end LiveMarkup.Reactive
