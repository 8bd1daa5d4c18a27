import LiveMarkup.Codegen.Compile
import LiveMarkup.Codegen.Site

/-!
Compiling a source file: every template block is replaced by its code, blocks inside the embedded code of
others included, and what the code needs is declared at the top.
-/

namespace LiveMarkup.Codegen
open Template (CompileError Position)

structure CompiledModule where
  code : String
  /-- How many blocks were compiled, inner ones included. -/
  templates : Nat
  /-- How many declarations were hoisted. -/
  hoisted : Nat
  deriving Repr, BEq, DecidableEq

/-- Why a file is not compiled: it is refused, or it is to be cut where it has no character boundary, which is a crash. -/
inductive Failure where
  | refused (error : CompileError)
  | badCut
  deriving Repr, BEq, DecidableEq

namespace Module

/-- The first bytes of a text, unless the text ends before or a character goes on behind them. -/
def cutTo? : (bytes : Nat) → List Char → Option (List Char)
  | 0, _ => some []
  | _ + 1, [] => none
  | n + 1, c :: rest => if c.utf8Size ≤ n + 1 then (cutTo? (n + 1 - c.utf8Size) rest).map (c :: ·) else none

def utf8 (cs : List Char) : List UInt8 := cs.flatMap String.utf8EncodeChar

def shared : List UInt8 → List UInt8 → Nat
  | a :: as, b :: bs => if a = b then 1 + shared as bs else 0
  | _, _ => 0

/-- Of the blocks behind a spot, the offset of the first that shares most with a text; `best` is the offset and
length of the best so far. The fuel bounds the search. -/
def bestMatch (name : List Char) (text : List UInt8) : Nat → Spot → Nat × Nat → Nat
  | 0, _, best => best.1
  | fuel + 1, spot, best =>
    match Site.next name spot with
    | none => best.1
    | some (start, _) =>
      let length := shared (utf8 start.rest) text
      let best := if length > best.2 then (start.position.offset, length) else best
      bestMatch name text fuel (start.skip 1) best

/-- The offset in a file of the block that a text starts with, which was copied from `region` of the file. -/
def locate (name file : List Char) (region : Nat × Nat) (text : List Char) : Option Nat :=
  (cutTo? region.2 file).map fun upTo =>
    let spot := (Spot.start upTo).skipBytes region.1
    bestMatch name (utf8 text) (spot.rest.length + 1) spot (region.1, 0)

def positionOf (file : List Char) (offset : Nat) : Option Position := (cutTo? offset file).map ({} : Position).pastAll

/-- What the compiler takes for the place of a block in the file: the offsets of the block and of its brace, and the
position of the brace. -/
structure BlockPlace where
  offset : Nat
  brace : Nat
  position : Position

def blockOffset (name file : List Char) (within : Option (Nat × Nat)) (start : Spot) : Option Nat :=
  match within with
  | none => some start.position.offset
  | some region => locate name file region start.rest

/-- The place of a block in the file itself, or in code whose blocks were copied from the region `within` of it. -/
def blockPlace (name file : List Char) (within : Option (Nat × Nat)) (start brace : Spot) : Option BlockPlace :=
  (blockOffset name file within start).bind fun offset =>
    let braceOffset := offset + (brace.position.offset - start.position.offset)
    (positionOf file braceOffset).map fun position => ⟨offset, braceOffset, position⟩

/-- Compiling blocks one after the other changes the context and may fail. -/
abbrev Expand := StateT Context (Except Failure)

def orBadCut {α : Type} : Option α → Expand α
  | some found => pure found
  | none => throw .badCut

/-- Replaces the blocks behind a spot and those in their code, and counts them. The spot is in the file itself,
or in code whose blocks were copied from the region `within` of it. Errors are located in the file. -/
def expand (name file : List Char) : Nat → Option (Nat × Nat) → Spot → Expand (List Char × Nat)
  | 0, _, spot => return (spot.rest, 0)
  | fuel + 1, within, spot =>
    match Site.next name spot with
    | none => return (spot.rest, 0)
    | some (start, brace) => do
      let place ← orBadCut (blockPlace name file within start brace)
      let here := place.position
      let (roots, length) ← match Template.parseBlock (String.ofList brace.rest) with
        | .ok parsed => pure parsed
        | .error error =>
          match error.cause with
          | .unclosedBlock _ =>
            let p ← orBadCut (positionOf file place.offset)
            throw (.refused ⟨.unclosedBlock (String.ofList name), p.line, p.column⟩)
          | _ => throw (.refused (error.offset here.line here.column))
      let blueprint ← match Blueprint.build roots with
        | .ok blueprint => pure blueprint
        | .error error => throw (.refused (error.offset here.line here.column))
      let code ← modifyGet (generate blueprint).run
      let (inner, nested) ←
        expand name file fuel (some (place.brace, place.brace + length)) (Spot.start code.toList)
      let (tail, more) ← expand name file fuel within (brace.skipBytes length)
      return (spot.textTo start ++ inner ++ tail, 1 + nested + more)

/-- How much of a text comes before the first line that is neither blank nor an inner comment or attribute:
up to the last of those. `here` is the length of the lines so far, `offset` that up to the last of them. -/
def headerLength (here offset : Nat) : List (List Char) → Nat
  | [] => offset
  | line :: rest =>
    let trimmed := Text.trim line
    let ending := here + line.length + 1
    if "//!".toList.isPrefixOf trimmed || "#![".toList.isPrefixOf trimmed then headerLength ending ending rest
    else if trimmed.isEmpty then headerLength ending offset rest
    else offset

def insertHeader (header body : List Char) : List Char :=
  if header.isEmpty then body
  else
    let n := headerLength 0 0 (Text.splitAt '\n' body)
    let rest := body.drop n
    body.take n ++ header ++ (if rest.head? = some '\n' then rest else '\n' :: rest)

end Module

def compileModule (source : String) (options : Options) : Except Failure CompiledModule := do
  let file := source.toList
  let ((body, templates), context) ←
    (Module.expand options.keyword.toList file (file.length + 1) none (.start file)).run (.ofOptions options)
  let header := context.renderImports ++ context.renderHoisted
  return ⟨String.ofList (Module.insertHeader header.toList body), templates, context.declarations.entries.length⟩

end LiveMarkup.Codegen
