import LiveMarkup.Live.Bindings
import LiveMarkup.Live.Mount

/-!
What procedures do, given what the program at hand does.
-/

namespace LiveMarkup.Live
open Document
open Reactive

variable {γ τ : Type}

def Procedure.meaning (host : Host γ τ) : {ι : Type} → Procedure γ ι → LiveProgram γ τ ι
  | _, .view (.code code) => host.view code
  | _, .view (.cell cell) => do return .ofDatum (← Program.get true cell)
  | _, .attributeText (.code code) => host.attributeText code
  | _, .attributeText (.cell cell) => do (← Program.get true cell).toAttribute
  | _, .datum (.code code) => host.datum code
  | _, .datum (.cell cell) => Program.get true cell
  | _, .act code => host.act code
  | _, .handle code event => host.handle code event
  | _, .items shown => shown.items
  | _, .markup shown => shown.markup
  | _, .refresh region shown => Live.refresh region shown
  | _, .bind n binding source => do
    let value ← Program.call (.attributeText source)
    alterDocument (binding.apply n value)
  | _, .bindProperty n name source => do
    let datum ← Program.call (.datum source)
    alterDocument (·.setProperty n name (.followed datum))
  | _, .bindEntry n name code => do
    let datum ← Program.call (.datum (.code code))
    alterDocument (applyEntry n name datum)
  | _, .unlisten n listener => do
    let _ ← Live.unlisten n listener

/-- How deep procedures and reactions may be nested. -/
def depth : Nat := 1000000

def run {α : Type} (host : Host γ τ) (program : LiveProgram γ τ α) : Run (Procedure γ) (World γ τ) Datum α :=
  program.execute (Procedure.meaning host) depth

end LiveMarkup.Live
