import LiveMarkup.Blueprint.Builder
import LiveMarkup.Codegen.Client
import LiveMarkup.Codegen.Server

/-!
Compiling one template: reading it, making its blueprint and generating the code of the target.
-/

namespace LiveMarkup.Codegen
open Template (CompileError)

def generate (blueprint : Blueprint) : Gen String := do
  match (← get).target with
  | .client => client blueprint
  | .server => server blueprint

structure CompiledTemplate where
  code : String
  hoisted : String
  imports : String
  deriving Repr, BEq, DecidableEq

def compileInto (context : Context) (source : String) : Except CompileError (String × Context) := do
  let blueprint ← Blueprint.build (← Template.parse source)
  return (generate blueprint).run context

def compileTemplate (source : String) (options : Options) : Except CompileError CompiledTemplate := do
  let (code, context) ← compileInto (.ofOptions options) source
  return ⟨code, context.renderHoisted, context.renderImports⟩

end LiveMarkup.Codegen
