import LiveMarkup.Codegen.Module
import LiveMarkup.Proofs.Refusals
import Mathlib

/-!
Where the errors of a file are located. The blocks of the file and those in the code that is made of them are compiled one
after the other. What one of them is refused for is a construct of its text, located as far behind the brace that the
compiler takes for the brace of the block: for a block of the file that is its own, so that the location is right. A block in
the code of another is looked up in the file, and where its lines were moved to the right the location is as far off.
-/

namespace LiveMarkup.Codegen
open Template List String Blueprint

namespace Spot

variable {file : List Char} {spot : Spot}

def In (file : List Char) (spot : Spot) : Prop := ∃ i, spot.position = placeAt file i ∧ spot.rest = file.drop i

theorem in_start (file : List Char) : (start file).In file := ⟨0, rfl, rfl⟩

theorem In.skip (mem : spot.In file) (n : Nat) : (spot.skip n).In file := by
  obtain ⟨i, there, rest⟩ := mem
  refine ⟨i + n, ?_, ?_⟩
  · rw [placeAt_add, ← there, ← rest]
    rfl
  · rw [← drop_drop, ← rest]
    rfl

theorem offset_skip_le (spot : Spot) (n : Nat) : spot.position.offset ≤ (spot.skip n).position.offset := by
  show _ ≤ (spot.position.pastAll (spot.rest.take n)).offset
  rw [Position.offset_pastAll]
  omega

theorem charsIn_utf8Len (cs rest : List Char) : charsIn (utf8Len cs) (cs ++ rest) = cs.length := by
  induction cs with
  | nil =>
    cases rest with
    | nil => rfl
    | cons => simp [charsIn]
  | cons c cs ih =>
    have some := c.utf8Size_pos
    have left : utf8Len (c :: cs) - c.utf8Size = utf8Len cs := by
      rw [utf8Len_cons]
      omega
    have solid : utf8Len (c :: cs) ≠ 0 := by
      rw [utf8Len_cons]
      omega
    rw [cons_append, charsIn, if_neg solid, left, ih, length_cons, Nat.add_comm]

end Spot

theorem charsIn_offset (file : List Char) (i : Nat) : Spot.charsIn (placeAt file i).offset file = min i file.length := by
  have size : (placeAt file i).offset = utf8Len (file.take i) := by
    rw [placeAt, Position.offset_pastAll]
    exact Nat.zero_add _
  have count := Spot.charsIn_utf8Len (file.take i) (file.drop i)
  rwa [take_append_drop, ← size, length_take] at count

theorem nextFrom_skips {name : List Char} {fuel : Nat} {spot start brace : Spot} {good : Spot → Prop}
    (skips : ∀ spot n, good spot → good (spot.skip n)) (holds : good spot)
    (found : Site.nextFrom name fuel spot = some (start, brace)) :
    good start ∧ start.rest ≠ [] ∧ ∃ n, brace = start.skip n := by
  induction fuel generalizing spot with
  | zero => cases found
  | succ _ ih =>
    rw [Site.nextFrom] at found
    split at found
    · cases found
    · rename_i c rest text
      dsimp only at found
      split at found
      · rename_i n _
        obtain ⟨rfl, rfl⟩ := Prod.mk.inj (Option.some.inj found)
        exact ⟨holds, by rw [text]; exact cons_ne_nil c rest, n, rfl⟩
      · exact ih (skips _ _ holds) found

theorem length_skip_le (spot : Spot) (n : Nat) : (spot.skip n).rest.length ≤ spot.rest.length := by
  show (spot.rest.drop n).length ≤ _
  rw [length_drop]
  omega

theorem length_behind_next {name : List Char} {spot start brace : Spot} (found : Site.next name spot = some (start, brace)) :
    (start.skip 1).rest.length < spot.rest.length := by
  have shorter : ∀ (other : Spot) n, other.rest.length ≤ spot.rest.length → (other.skip n).rest.length ≤ spot.rest.length :=
    fun other n short => (length_skip_le other n).trans short
  obtain ⟨_, more, _⟩ := nextFrom_skips shorter (le_rfl) found
  show (start.rest.drop 1).length < _
  have some := length_pos_iff.mpr more
  rw [length_drop]
  omega

inductive BlockBehind (name : List Char) : Spot → Spot → Prop
  | next {spot start brace : Spot} (found : Site.next name spot = some (start, brace)) : BlockBehind name spot start
  | later {spot start brace other : Spot} (found : Site.next name spot = some (start, brace))
      (behind : BlockBehind name (start.skip 1) other) : BlockBehind name spot other

/-- An offset and a number of bytes: of the blocks behind a spot, the offset of one that shares most with the text, and how
much it shares; or what was the best before. -/
structure Best (name : List Char) (text : List UInt8) (spot : Spot) (before best : Nat × Nat) : Prop where
  found : best = before ∨ ∃ start, BlockBehind name spot start ∧
    best = (start.position.offset, Module.shared (Module.utf8 start.rest) text)
  no_less : before.2 ≤ best.2
  most : ∀ start, BlockBehind name spot start → Module.shared (Module.utf8 start.rest) text ≤ best.2

variable {before : Nat × Nat} {text : List UInt8}

theorem Best.step {name : List Char} {spot start brace : Spot} {best : Nat × Nat}
    (found : Site.next name spot = some (start, brace))
    (later : Best name text (start.skip 1)
      (if Module.shared (Module.utf8 start.rest) text > before.2 then
        (start.position.offset, Module.shared (Module.utf8 start.rest) text) else before) best) :
    Best name text spot before best := by
  obtain ⟨kept, no_less, most⟩ := later
  have here : Module.shared (Module.utf8 start.rest) text ≤ best.2 ∧ before.2 ≤ best.2 := by
    split at no_less
    · rename_i more
      exact ⟨no_less, more.le.trans no_less⟩
    · rename_i less
      exact ⟨(not_lt.mp less).trans no_less, no_less⟩
  refine ⟨?_, here.2, fun other behind => ?_⟩
  · rcases kept with same | ⟨other, behind, same⟩
    · split at same
      · exact .inr ⟨start, .next found, same⟩
      · exact .inl same
    · exact .inr ⟨other, .later found behind, same⟩
  · cases behind with
    | next again =>
      obtain ⟨rfl, _⟩ := Prod.mk.inj (Option.some.inj (found.symm.trans again))
      exact here.1
    | later again behind =>
      obtain ⟨rfl, _⟩ := Prod.mk.inj (Option.some.inj (found.symm.trans again))
      exact most other behind

theorem best_bestMatch {name : List Char} {fuel : Nat} {spot : Spot} (enough : spot.rest.length < fuel) :
    ∃ length, Best name text spot before (Module.bestMatch name text fuel spot before, length) := by
  induction fuel generalizing spot before with
  | zero => omega
  | succ _ ih =>
    rw [Module.bestMatch]
    split
    · rename_i none
      refine ⟨before.2, .inl rfl, le_rfl, fun start behind => ?_⟩
      cases behind with
      | next found | later found => rw [none] at found; cases found
    · rename_i start brace found
      obtain ⟨length, best⟩ := ih ((length_behind_next found).trans_le (Nat.lt_succ_iff.mp enough))
      exact ⟨length, best.step found⟩

/-- The offset is that of a block of a region of the file which shares most with the text; where the region has no block it
is that of the region. -/
def LookedUp (name file : List Char) (region : Nat × Nat) (text : List Char) (offset : Nat) : Prop :=
  ∃ length, Best name (Module.utf8 text) ((Spot.start (file.take (Spot.charsIn region.2 file))).skipBytes region.1)
    (region.1, 0) (offset, length)

theorem cutTo?_eq_some {bytes : Nat} {cut : List Char} (found : Module.cutTo? bytes file = some cut) :
    cut = file.take (Spot.charsIn bytes file) := by
  induction file generalizing bytes cut with
  | nil =>
    cases bytes with
    | zero => exact (Option.some.inj found).symm
    | succ => cases found
  | cons c rest ih =>
    cases bytes with
    | zero => exact (Option.some.inj found).symm
    | succ =>
      obtain ⟨-, found⟩ := Option.ite_none_right_eq_some.mp found
      obtain ⟨_, behind, rfl⟩ := Option.map_eq_some_iff.mp found
      rw [Spot.charsIn, if_neg (Nat.succ_ne_zero _), Nat.add_comm, take_succ_cons, ← ih behind]

theorem lookedUp_locate {name : List Char} {region : Nat × Nat} {text : List Char} {offset : Nat}
    (found : Module.locate name file region text = some offset) : LookedUp name file region text offset := by
  obtain ⟨_, cut, rfl⟩ := Option.map_eq_some_iff.mp found
  obtain rfl := cutTo?_eq_some cut
  exact best_bestMatch (Nat.lt_succ_self _)

section Expansion

variable {name file : List Char} {fuel : Nat} {within : Option (Nat × Nat)} {spot start brace : Spot} {context : Context}
variable {error : CompileError} {length : Nat} {place : Module.BlockPlace}

/-- The offset in the file of the brace of a block, as the compiler takes it: a block in the code of another is looked up. -/
def braceOffset (name file : List Char) (within : Option (Nat × Nat)) (start brace : Spot) : Nat :=
  ((Module.blockPlace name file within start brace).map (·.brace)).getD 0

def braceIndex (name file : List Char) (within : Option (Nat × Nat)) (start brace : Spot) : Nat :=
  Spot.charsIn (braceOffset name file within start brace) file

def inFile (name file : List Char) (within : Option (Nat × Nat)) (start brace : Spot) (error : CompileError) : CompileError :=
  let here := placeAt file (braceIndex name file within start brace)
  error.offset here.line here.column

theorem blockPlace_eq_some (placed : Module.blockPlace name file within start brace = some place) :
    (∃ offset, braceOffset name file within start brace = offset + (brace.position.offset - start.position.offset) ∧
      (within = none → offset = start.position.offset) ∧
      ∀ region, within = some region → LookedUp name file region start.rest offset) ∧
    place.brace = braceOffset name file within start brace ∧
    place.position = placeAt file (braceIndex name file within start brace) := by
  have same : braceOffset name file within start brace = place.brace := by rw [braceOffset, placed]; rfl
  rw [braceIndex, same]
  obtain ⟨offset, found, placed⟩ := Option.bind_eq_some_iff.mp placed
  obtain ⟨_, located, rfl⟩ := Option.map_eq_some_iff.mp placed
  obtain ⟨_, cut, rfl⟩ := Option.map_eq_some_iff.mp located
  refine ⟨⟨offset, rfl, ?_, ?_⟩, rfl, by rw [cutTo?_eq_some cut]; rfl⟩
  · rintro rfl
    exact (Option.some.inj found).symm
  · rintro region rfl
    exact lookedUp_locate found

section

variable (found : Site.next name spot = some (start, brace))
include found

theorem expand_unplaced (none : Module.blockPlace name file within start brace = none) :
    (Module.expand name file (fuel + 1) within spot).run context = .error .badCut := by
  simp only [Module.expand, found, none]
  rfl

variable (placed : Module.blockPlace name file within start brace = some place)
include placed

theorem expand_refused (failed : parseBlock (ofList brace.rest) = .error error)
    (closed : ∀ keyword, error.cause ≠ .unclosedBlock keyword) :
    (Module.expand name file (fuel + 1) within spot).run context =
      .error (.refused (inFile name file within start brace error)) := by
  rw [inFile, ← (blockPlace_eq_some placed).2.2]
  simp only [Module.expand, found, placed, failed]
  obtain ⟨cause, _, _⟩ := error
  cases cause with
  | unclosedBlock keyword => exact absurd rfl (closed keyword)
  | _ => rfl

theorem expand_unclosed {keyword : String} (failed : parseBlock (ofList brace.rest) = .error error)
    (open_ : error.cause = .unclosedBlock keyword) :
    ∃ failure, (∀ fuel context, (Module.expand name file (fuel + 1) within spot).run context = .error failure) ∧
      ∀ fault, failure = .refused fault → fault.cause = .unclosedBlock (ofList name) := by
  obtain ⟨_, _, _⟩ := error
  obtain rfl := open_
  cases cut : Module.positionOf file place.offset with
  | none =>
    refine ⟨.badCut, fun fuel context => ?_, nofun⟩
    simp only [Module.expand, found, placed, failed, Module.orBadCut, pure_bind, cut]
    rfl
  | some p =>
    refine ⟨.refused ⟨.unclosedBlock (ofList name), p.line, p.column⟩, fun fuel context => ?_, fun _ same => ?_⟩
    · simp only [Module.expand, found, placed, failed, Module.orBadCut, pure_bind, cut]
      rfl
    · rw [← Failure.refused.inj same]

theorem expand_unbuilt {roots : List Tree}
    (read : parseBlock (ofList brace.rest) = .ok (roots, length)) (failed : build roots = .error error) :
    (Module.expand name file (fuel + 1) within spot).run context =
      .error (.refused (inFile name file within start brace error)) := by
  rw [inFile, ← (blockPlace_eq_some placed).2.2]
  simp only [Module.expand, found, placed, read, pure_bind, failed]
  rfl

end

/-- The next block behind a spot takes `length` bytes, and the blueprint is built from it. -/
structure Builds (name : List Char) (spot start brace : Spot) (length : Nat) (blueprint : Blueprint) : Prop where
  found : Site.next name spot = some (start, brace)
  built : ∃ roots, parseBlock (String.ofList brace.rest) = .ok (roots, length) ∧ Blueprint.build roots = .ok blueprint

variable (file within) in
theorem expand_fails_or_builds (found : Site.next name spot = some (start, brace)) :
    (∃ failure, (∀ fuel context, (Module.expand name file (fuel + 1) within spot).run context = .error failure) ∧
      ∀ error, failure = .refused error → (∀ keyword, error.cause ≠ .unclosedBlock keyword) →
        ∃ place own, Module.blockPlace name file within start brace = some place ∧ own.Stands brace.rest ∧
          error = inFile name file within start brace own) ∨
      ∃ place length blueprint, Module.blockPlace name file within start brace = some place ∧
        Builds name spot start brace length blueprint := by
  have text : (ofList brace.rest).toList = brace.rest := toList_ofList
  cases placed : Module.blockPlace name file within start brace with
  | none => exact .inl ⟨_, fun _ _ => expand_unplaced found placed, nofun⟩
  | some place =>
    cases read : parseBlock (ofList brace.rest) with
    | error own =>
      by_cases open_ : ∃ keyword, own.cause = .unclosedBlock keyword
      · obtain ⟨_, open_⟩ := open_
        obtain ⟨failure, runs, unclosed⟩ := expand_unclosed found placed read open_
        refine .inl ⟨failure, runs, ?_⟩
        rintro error rfl closed
        exact absurd (unclosed error rfl) (closed _)
      · have ends := not_exists.mp open_
        refine .inl ⟨_, fun _ _ => expand_refused found placed read ends, ?_⟩
        rintro _ ⟨⟩ -
        exact ⟨place, own, rfl, text ▸ stands_parseBlock read ends, rfl⟩
    | ok block =>
      obtain ⟨roots, length⟩ := block
      have stands := placedAll_parseBlock read
      rw [text] at stands
      cases built : build roots with
      | error own =>
        have settled := settles_build stands
        rw [built] at settled
        refine .inl ⟨_, fun _ _ => expand_unbuilt found placed read built, ?_⟩
        rintro _ ⟨⟩ -
        exact ⟨place, own, rfl, settled.faulty, rfl⟩
      | ok blueprint => exact .inr ⟨place, length, blueprint, rfl, found, roots, read, built⟩

/-- The region of the file from which the blocks in the code of a block were copied. -/
def blockRegion (name file : List Char) (within : Option (Nat × Nat)) (start brace : Spot) (length : Nat) : Nat × Nat :=
  (braceOffset name file within start brace, braceOffset name file within start brace + length)

theorem expand_built {blueprint : Blueprint} (builds : Builds name spot start brace length blueprint)
    (placed : Module.blockPlace name file within start brace = some place) :
    (Module.expand name file (fuel + 1) within spot).run context = (do
      let made := (generate blueprint).run context
      let ((inner, nested), after) ← (Module.expand name file fuel (some (blockRegion name file within start brace length))
        (.start made.1.toList)).run made.2
      let ((tail, more), after) ← (Module.expand name file fuel within (brace.skipBytes length)).run after
      return ((spot.textTo start ++ inner ++ tail, 1 + nested + more), after)) := by
  obtain ⟨found, _, read, built⟩ := builds
  rw [blockRegion, ← (blockPlace_eq_some placed).2.1]
  simp only [Module.expand, found, placed, read, pure_bind, built]
  rfl

/-- The searches for blocks that are made: in the file, in the code of each block, and behind the block once the blocks in
its code are compiled. -/
inductive Searches (name file : List Char) (first : Context) : Option (Nat × Nat) → Spot → Context → Prop
  | file : Searches name file first none (.start file) first
  | inside {within : Option (Nat × Nat)} {spot start brace : Spot} {context : Context} {length : Nat} {blueprint : Blueprint}
      (search : Searches name file first within spot context) (builds : Builds name spot start brace length blueprint) :
      Searches name file first (some (blockRegion name file within start brace length))
        (.start ((generate blueprint).run context).1.toList) ((generate blueprint).run context).2
  | behind {within : Option (Nat × Nat)} {spot start brace : Spot} {context after : Context} {length fuel : Nat}
      {blueprint : Blueprint} {result : List Char × Nat} (search : Searches name file first within spot context)
      (builds : Builds name spot start brace length blueprint)
      (compiled : (Module.expand name file fuel (some (blockRegion name file within start brace length))
        (.start ((generate blueprint).run context).1.toList)).run ((generate blueprint).run context).2 = .ok (result, after)) :
      Searches name file first within (brace.skipBytes length) after

variable {first : Context}

theorem Searches.in_file (search : Searches name file first within spot context) (outer : within = none) : spot.In file := by
  induction search with
  | file => exact Spot.in_start file
  | inside => cases outer
  | behind _ builds _ ih =>
    obtain ⟨there, _, n, rfl⟩ := nextFrom_skips (fun _ n inside => inside.skip n) (ih outer) builds.found
    exact (there.skip n).skip _

theorem bind_eq_error {ε α β : Type} {x : Except ε α} {f : α → Except ε β} {e : ε} (failed : (x >>= f) = .error e) :
    x = .error e ∨ ∃ a, x = .ok a ∧ f a = .error e := by
  cases x with
  | error => exact .inl (congrArg Except.error (Except.error.inj failed))
  | ok a => exact .inr ⟨a, rfl, failed⟩

theorem exists_refused (search : Searches name file first within spot context)
    (failed : (Module.expand name file fuel within spot).run context = .error (.refused error))
    (closed : ∀ keyword, error.cause ≠ .unclosedBlock keyword) :
    ∃ within spot context start brace place own, Searches name file first within spot context ∧
      Site.next name spot = some (start, brace) ∧ Module.blockPlace name file within start brace = some place ∧
      own.Stands brace.rest ∧ error = inFile name file within start brace own := by
  -- on the fuel of a search: the next block is refused, or one in its code, or one behind it
  induction fuel generalizing within spot context with
  | zero => cases failed
  | succ _ ih =>
    cases found : Site.next name spot with
    | none =>
      simp only [Module.expand, found] at failed
      cases failed
    | some site =>
      obtain ⟨start, brace⟩ := site
      obtain ⟨_, runs, blames⟩ | ⟨place, length, blueprint, placed, builds⟩ :=
        expand_fails_or_builds file within found
      · obtain ⟨place, own, placed, stands, located⟩ := blames error (Except.error.inj ((runs _ _).symm.trans failed)) closed
        exact ⟨within, spot, context, start, brace, place, own, search, found, placed, stands, located⟩
      · rw [expand_built builds placed] at failed
        rcases bind_eq_error failed with inner | ⟨⟨result, after⟩, inner, failed⟩
        · exact ih (search.inside builds) inner
        · rcases bind_eq_error failed with tail | ⟨_, _, done⟩
          · exact ih (search.behind builds inner) tail
          · cases done

end Expansion

section Locations

variable {name file : List Char} {within : Option (Nat × Nat)} {spot start brace : Spot} {first context : Context}

/-- The location of what stands `k` characters into the text of a block whose brace is taken for the character of the file
with index `i`: as far behind it. Where the text is that of the file but for lines that were moved `n` columns to the right,
the line is right, and the column is `n` too high if there is a line break between the brace and the construct. -/
structure LocatedAt (file text : List Char) (i k : Nat) (error : CompileError) : Prop where
  place : error.IsAt ((placeAt file i).pastAll (text.take k))
  copied : ∀ m n, text.take k = moved n ((file.drop i).take m) → error.line = (placeAt file (i + m)).line ∧
    error.column = (placeAt file (i + m)).column + if '\n' ∈ (file.drop i).take m then n else 0

theorem locatedAt (file : List Char) (i : Nat) {text : List Char} {k : Nat} {own : CompileError}
    (there : own.IsAt (placeAt text k)) :
    LocatedAt file text i k (own.offset (placeAt file i).line (placeAt file i).column) := by
  have place := there.offset (placeAt file i)
  refine ⟨place, fun m n same => ?_⟩
  rw [same] at place
  obtain ⟨line, column⟩ := pastAll_moved (placeAt file i) n ((file.drop i).take m)
  rw [placeAt_add]
  exact ⟨place.1.trans line, place.2.trans column⟩

theorem braceIndex_outer (search : Searches name file first none spot context)
    (found : Site.next name spot = some (start, brace)) {place : Module.BlockPlace}
    (placed : Module.blockPlace name file none start brace = some place) :
    file.drop (braceIndex name file none start brace) = brace.rest := by
  obtain ⟨mem, _, n, rfl⟩ := nextFrom_skips (fun _ n mem => mem.skip n) (search.in_file rfl) found
  obtain ⟨i, there, rest⟩ := mem.skip n
  have offset : braceOffset name file none start (start.skip n) = (placeAt file i).offset := by
    have after := start.offset_skip_le n
    obtain ⟨⟨_, offset, own, -⟩, -⟩ := blockPlace_eq_some placed
    rw [offset, own rfl, ← there]
    omega
  rw [braceIndex, offset, charsIn_offset, ← drop_eq_drop_min, rest]

/-- The block that an error is raised in. It is located as far behind the place that the compiler has for the brace of the
block as the construct at which it shows stands behind the brace. For a block of the file itself that is where the construct
stands; a block in the code of another is taken to be the block of the other's text that shares most with it. -/
structure RaisedIn (name file : List Char) (first : Context) (error : CompileError) (within : Option (Nat × Nat))
    (spot start brace : Spot) : Prop where
  search : ∃ context, Searches name file first within spot context
  block : Site.next name spot = some (start, brace)
  construct : ∃ k shown, Blames (brace.rest.drop k) error.cause shown ∧ shown <+: brace.rest.drop k ∧
    LocatedAt file brace.rest (braceIndex name file within start brace) k error
  outermost : within = none → error.Stands file
  nested : ∀ region, within = some region → ∃ offset, LookedUp name file region start.rest offset ∧
    braceOffset name file within start brace = offset + (brace.position.offset - start.position.offset)

theorem compileModule_eq_error_iff {source : String} {options : Options} {failure : Failure} :
    compileModule source options = .error failure ↔
      (Module.expand options.keyword.toList source.toList (source.toList.length + 1) none
        (.start source.toList)).run (.ofOptions options) = .error failure := by
  refine ⟨fun failed => ?_, fun refused => ?_⟩
  · rcases bind_eq_error failed with refused | ⟨_, _, done⟩
    · exact refused
    · cases done
  · unfold compileModule
    dsimp only
    rw [refused]
    rfl

/-- Every error but that of a block that is not closed is raised in a block, and it is located behind its brace. -/
theorem error_located_behind_brace {source : String} {options : Options} {error : CompileError}
    (failed : compileModule source options = .error (.refused error))
    (closed : ∀ keyword, error.cause ≠ .unclosedBlock keyword) :
    ∃ within spot start brace,
      RaisedIn options.keyword.toList source.toList (.ofOptions options) error within spot start brace := by
  obtain ⟨within, spot, context, start, brace, _, own, search, found, placed, ⟨k, shown, blames, there, place⟩, rfl⟩ :=
    exists_refused .file (compileModule_eq_error_iff.mp failed) closed
  have located := locatedAt source.toList (braceIndex options.keyword.toList source.toList within start brace) place
  refine ⟨within, spot, start, brace, ⟨context, search⟩, found, ⟨k, shown, blames, there, located⟩, ?_, ?_⟩
  · rintro rfl
    have rest := braceIndex_outer search found placed
    refine ⟨braceIndex options.keyword.toList source.toList none start brace + k, shown, ?_, ?_, ?_⟩
    · rwa [← drop_drop, rest]
    · rwa [← drop_drop, rest]
    · rw [placeAt_add, rest]
      exact located.place
  · rintro region rfl
    obtain ⟨⟨offset, brace, -, looked⟩, -⟩ := blockPlace_eq_some placed
    exact ⟨offset, looked region rfl, brace⟩

/-- A template whose only element shows another, which is closed under a wrong name on its second line. -/
def panel : String := "view!\x7b<p>\x7bview!\x7b\n<i></b>\x7d\x7d</p>\x7d"

def panelBlock : String := "\x7b<p>\x7bview!\x7b\n<i></b>\x7d\x7d</p>\x7d"

def innerCode : String := "view!\x7b\n<i></b>\x7d"

def panelTrees : List Tree :=
  [.element "p" [] [.expression innerCode ⟨⟨4, 1, 5⟩, 21⟩] false ⟨⟨1, 1, 2⟩, 25⟩]

def panelValue : Blueprint.Value := ⟨innerCode, none, true, none⟩

def panelBlueprint : Blueprint :=
  ⟨false, [.element ⟨"p", false, false, 1, 0, ⟨⟨1, 1, 2⟩, 25⟩, true⟩ [] [.expression panelValue ⟨⟨4, 1, 5⟩, 21⟩]]⟩

def panelCode : String :=
  "\x7b\n    let __el = __TMPL.with(__clone);\n    __insert(&__el, move || view!\x7b\n    <i></b>\x7d, None);\n    __el\n\x7d"

def innerBlock : String := "\x7b\n    <i></b>\x7d, None);\n    __el\n\x7d"

def innerStart : Spot := ⟨⟨67, 3, 29⟩, some ' ', "view!".toList ++ innerBlock.toList⟩

def innerBrace : Spot := ⟨⟨72, 3, 34⟩, some '!', innerBlock.toList⟩

def panelError : CompileError := ⟨.mismatchedClose "i" "b", 2, 8⟩

theorem closed_panel (keyword : String) : panelError.cause ≠ .unclosedBlock keyword := by
  intro same
  cases same

theorem build_panel : Blueprint.build panelTrees = .ok panelBlueprint :=
  Blueprint.build_paragraph (by decide +kernel : Blueprint.analyze? innerCode = some panelValue)

section
set_option maxRecDepth 10000

theorem length_panel : panel.toList.length = 31 := by cbv

theorem next_panel : Site.next ['v', 'i', 'e', 'w'] (.start panel.toList) =
    some (.start panel.toList, ⟨⟨5, 1, 6⟩, some '!', panelBlock.toList⟩) := by cbv

theorem parse_panel : parseBlock panelBlock = .ok (panelTrees, 26) := by cbv

theorem generate_panel : ((generate panelBlueprint).run (.ofOptions {})).1 = panelCode := by cbv

theorem next_panelCode : Site.next ['v', 'i', 'e', 'w'] (.start panelCode.toList) = some (innerStart, innerBrace) := by cbv

theorem parse_innerBlock : parseBlock innerBlock = .error panelError := by cbv

theorem place_panel : Module.blockPlace ['v', 'i', 'e', 'w'] panel.toList none (.start panel.toList)
    ⟨⟨5, 1, 6⟩, some '!', panelBlock.toList⟩ = some ⟨0, 5, ⟨5, 1, 6⟩⟩ := by cbv

theorem place_inner : Module.blockPlace ['v', 'i', 'e', 'w'] panel.toList (some (5, 31)) innerStart innerBrace =
    some ⟨10, 15, ⟨15, 1, 16⟩⟩ := by cbv

theorem inFile_panel :
    inFile ['v', 'i', 'e', 'w'] panel.toList (some (5, 31)) innerStart innerBrace panelError = panelError := by cbv

end

theorem compile_panel : compileModule panel {} = .error (.refused panelError) := by
  -- the inner block is found in the panel's code and looked up between the panel's braces
  have inner (context : Context) : (Module.expand ['v', 'i', 'e', 'w'] panel.toList 31 (some (5, 31))
      (.start panelCode.toList)).run context = .error (.refused panelError) := by
    have refused : parseBlock (ofList innerBrace.rest) = .error panelError := by
      rw [innerBrace, ofList_toList, parse_innerBlock]
    rw [expand_refused next_panelCode place_inner refused closed_panel, inFile_panel]
  have outer : (Module.expand ['v', 'i', 'e', 'w'] panel.toList 32 none (.start panel.toList)).run (.ofOptions {}) =
      .error (.refused panelError) := by
    have read : parseBlock (ofList panelBlock.toList) = .ok (panelTrees, 26) := by
      rw [ofList_toList, parse_panel]
    have offset : braceOffset ['v', 'i', 'e', 'w'] panel.toList none (.start panel.toList)
        ⟨⟨5, 1, 6⟩, some '!', panelBlock.toList⟩ = 5 := rfl
    rw [expand_built ⟨next_panel, panelTrees, read, build_panel⟩ place_panel, blockRegion, offset]
    dsimp only
    rw [generate_panel, inner]
    rfl
  have keyword : ({} : Options).keyword.toList = ['v', 'i', 'e', 'w'] := by cbv
  rw [compileModule_eq_error_iff, keyword, length_panel]
  exact outer

theorem error_located_behind_brace_panel :
    compileModule panel {} = .error (.refused panelError) ∧ (∀ keyword, panelError.cause ≠ .unclosedBlock keyword) ∧
      ∃ within spot start brace, RaisedIn "view".toList panel.toList (.ofOptions {}) panelError within spot start brace :=
  ⟨compile_panel, closed_panel, error_located_behind_brace compile_panel closed_panel⟩

/-- The error of a block in the code of another need not be located at the construct that it shows at: the end tag of the
panel stands four columns before. -/
theorem moved_end_tag_misplaced :
    ¬ ∀ (source : String) (options : Options) (error : CompileError), compileModule source options = .error (.refused error) →
      (∀ keyword, error.cause ≠ .unclosedBlock keyword) → error.Stands source.toList := by
  intro right
  obtain ⟨k, shown, blames, there, _, column⟩ := right panel {} panelError compile_panel closed_panel
  have tag : shown = ['<', '/', 'b'] := by
    cases blames
    rfl
  subst tag
  have short : k < 31 := by
    have room := there.length_le
    rw [length_drop, length_panel] at room
    simp only [length_cons, length_nil] at room
    omega
  have nowhere : ∀ k < 31, ['<', '/', 'b'].isPrefixOf (panel.toList.drop k) → (placeAt panel.toList k).column ≠ 8 := by
    decide +kernel
  exact nowhere k short ( isPrefixOf_iff_prefix.mpr there) column.symm

end Locations
end LiveMarkup.Codegen
