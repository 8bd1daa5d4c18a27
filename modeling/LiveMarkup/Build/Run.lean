import LiveMarkup.Build.FileTree
import LiveMarkup.Codegen.Module

/-!
Building a file or a directory: every source is compiled to the same relative path under the output
directory, in the order of their paths, up to the first that fails.
-/

namespace LiveMarkup.Build
open Codegen
open Template (CompileError)

structure BuiltFile where
  source : Place
  output : Place
  templates : Nat
  deriving Repr, BEq, DecidableEq

inductive BuildError where
  | missingInput (input : Place)
  | noSources (input : Place)
  | unreadable (source : Place)
  | refused (source : Place) (error : CompileError)
  /-- The compiler crashed on a source, of which nothing is said. -/
  | crashed
  | cannotCreate (directory : Place)
  | cannotWrite (output : Place)
  deriving Repr, BEq, DecidableEq

def BuildError.message : BuildError → String
  | .missingInput input => "failed to stat " ++ input.spelling
  | .noSources input => "no .rs sources found under " ++ input.spelling
  | .unreadable source => "failed to read " ++ source.spelling
  | .refused source error => source.spelling ++ ":" ++ error.location ++ ": " ++ error.message
  | .crashed => ""
  | .cannotCreate directory => "failed to create " ++ directory.spelling
  | .cannotWrite output => "failed to write " ++ output.spelling

def BuildError.ofFailure (source : Place) : Failure → BuildError
  | .refused error => .refused source error
  | .badCut => .crashed

/-- Where the output goes unless something else is said. -/
def defaultOutput : String := "target/weft-gen"

/-- Searches directories for sources, the last one met first, and adds what it finds. The fuel bounds how many
directories there are. -/
def collect (tree : FileTree) : Nat → List Path → List Path → List Path
  | 0, _, found => found
  | _, [], found => found
  | fuel + 1, directory :: pending, found =>
    let inside := (tree.listing directory).map fun name => directory ++ [name]
    let (directories, others) := inside.partition tree.isDirectory
    collect tree fuel (directories.reverse ++ pending) (found ++ others.filter Path.isSource)

/-- The sources that an input stands for, each as the path from the base of the input: a file itself, or all
sources below a directory in order. -/
def sources (tree : FileTree) (input : Place) : Except BuildError (List (Place × Path)) :=
  if (tree.file? input.path).isSome then .ok [(input, input.path.drop (input.path.length - 1))]
  else if tree.isDirectory input.path then
    match collect tree tree.directoryBound [input.path] [] with
    | [] => .error (.noSources input)
    | found =>
      .ok ((found.mergeSort Path.le).map fun path =>
        let relative := path.drop input.path.length
        (input.below relative, relative))
  else .error (.missingInput input)

/-- Compiles one file; what is written stays written when a later one fails. -/
def buildFile (options : Options) (source output : Place) (tree : FileTree) : Except BuildError Nat × FileTree :=
  match tree.file? source.path with
  | some (.text text) =>
    match compileModule text options with
    | .error failure => (.error (.ofFailure source failure), tree)
    | .ok compiled =>
      let directory := output.parent
      if tree.blocked directory.path then (.error (.cannotCreate directory), tree)
      else
        let tree := tree.makeDirectory directory.path
        if tree.isDirectory output.path then (.error (.cannotWrite output), tree)
        else (.ok compiled.templates, tree.write output.path compiled.code)
  | _ => (.error (.unreadable source), tree)

def buildAll (options : Options) (output : Place) :
    List (Place × Path) → FileTree → Except BuildError (List BuiltFile) × FileTree
  | [], tree => (.ok [], tree)
  | (source, relative) :: rest, tree =>
    let target := output.below relative
    match buildFile options source target tree with
    | (.error error, tree) => (.error error, tree)
    | (.ok templates, tree) =>
      match buildAll options output rest tree with
      | (.error error, tree) => (.error error, tree)
      | (.ok built, tree) => (.ok (⟨source, target, templates⟩ :: built), tree)

/-- Builds an input into an output directory: what was built or why it failed, and the tree afterwards. -/
def build (options : Options) (output input : Place) (tree : FileTree) :
    Except BuildError (List BuiltFile) × FileTree :=
  match sources tree input with
  | .error error => (.error error, tree)
  | .ok found => buildAll options output found tree

end LiveMarkup.Build
