import LiveMarkup.Proofs.Expansion
import LiveMarkup.Proofs.FileTrees

/-!
Building over a tree of files. The sources of an input are settled by what the tree says of each path; they are
compiled in the order of their paths, each to its own path under the output directory, and the first that cannot
be compiled ends the run with the outputs before it written and nothing else changed.
-/

namespace LiveMarkup.Build
open Codegen FileTree List
variable {tree : FileTree} {options : Options} {path : Path}
variable {source : Place} {error : BuildError} {file : Finished} {done : List Finished}

/-! ### One source -/

def verdict (options : Options) (tree : FileTree) (source : Place) : Except BuildError CompiledModule :=
  match tree.file? source.path with
  | some (.text text) => (compileModule text options).mapError (.ofFailure source)
  | _ => .error (.unreadable source)

theorem verdict_congr {other : FileTree} (same : tree.file? source.path = other.file? source.path) :
    verdict options tree source = verdict options other source := by
  rw [verdict, verdict, same]

def BuildError.Names (error : BuildError) (place : Place) : Prop :=
  place.spelling.toList <:+: error.message.toList

theorem names_of_verdict (failed : verdict options tree source = .error error) :
    error.Names source ∨ error = .crashed := by
  have kinds : error = .unreadable source ∨ ∃ cause, error = .ofFailure source cause := by
    rw [verdict] at failed
    cases held : tree.file? source.path with
    | none => exact .inl (by simpa [held, eq_comm] using failed)
    | some content =>
      cases content with
      | bytes => exact .inl (by simpa [held, eq_comm] using failed)
      | text text =>
        cases compiled : compileModule text options with
        | ok => simp [held, compiled, Except.mapError] at failed
        | error cause => exact .inr ⟨cause, by simpa [held, compiled, Except.mapError, eq_comm] using failed⟩
  -- The message is unfolded by name: its equations hold the messages of all causes.
  rcases kinds with rfl | ⟨⟨cause⟩ | -, rfl⟩
  · refine .inl ?_
    unfold BuildError.Names BuildError.message
    simp only [String.toList_append]
    exact (suffix_append _ _).isInfix
  · refine .inl ?_
    unfold BuildError.ofFailure BuildError.Names BuildError.message
    simp only [String.toList_append, append_assoc]
    exact (prefix_append _ _).isInfix
  · exact .inr rfl

structure FileTree.Clear (tree : FileTree) (path : Path) : Prop where
  free : tree.isDirectory path = false
  unblocked : ∀ {p}, p.Above path → tree.file? p = none

def Path.Apart (p q : Path) : Prop := ¬ p <+: q ∧ ¬ q <+: p

def FileTree.emit (tree : FileTree) (path : Path) (text : String) : FileTree :=
  (tree.makeDirectory path.dropLast).write path text

theorem FileTree.Clear.ne_nil (clear : tree.Clear path) : path ≠ [] := by
  rintro rfl
  exact absurd clear.free (by simp [isDirectory])

theorem prefix_dropLast_iff {p : Path} (some : path ≠ []) : p <+: path.dropLast ↔ p.Above path := by
  rw [Path.above_iff_length]
  constructor
  · intro front
    have shorter := front.length_le
    have long := length_pos_iff.mpr some
    rw [length_dropLast] at shorter
    exact ⟨front.trans ( dropLast_prefix _), by omega⟩
  · rintro ⟨front, _⟩
    refine prefix_of_prefix_length_le front ( dropLast_prefix _) ?_
    rw [length_dropLast]
    omega

theorem file?_emit (tree : FileTree) (path p : Path) (text : String) :
    (tree.emit path text).file? p = if p = path then some (.text text) else tree.file? p := by
  rw [emit, file?_write, file?_makeDirectory]

section
variable {options : Options} {tree : FileTree} {source output : Place} {path : Path} {compiled : CompiledModule}

theorem FileTree.Clear.free_makeDirectory (clear : tree.Clear path) :
    (tree.makeDirectory path.dropLast).isDirectory path = false := by
  rw [← Bool.not_eq_true, isDirectory_makeDirectory, prefix_dropLast_iff clear.ne_nil]
  rintro (known | above)
  · simp [clear.free] at known
  · exact above.2 rfl

theorem FileTree.Clear.isDirectory_emit (clear : tree.Clear path) (p : Path) (text : String) :
    (tree.emit path text).isDirectory p ↔ tree.isDirectory p ∨ p.Above path := by
  rw [emit, isDirectory_write clear.free_makeDirectory, isDirectory_makeDirectory,
    prefix_dropLast_iff clear.ne_nil, or_assoc, or_self]

theorem FileTree.Clear.emit {other : Path} (clear : tree.Clear path) (also : tree.Clear other) (text : String)
    (apart : path.Apart other) : (tree.emit path text).Clear other where
  free := by
    rw [← Bool.not_eq_true, clear.isDirectory_emit]
    rintro (known | above)
    · simp [also.free] at known
    · exact apart.2 above.1
  unblocked {p} above := by
    have differs : p ≠ path := fun same => apart.1 (same ▸ above.1)
    rw [file?_emit, if_neg differs, also.unblocked above]

theorem verdict_eq_ok_iff : verdict options tree source = .ok compiled ↔
    ∃ text, tree.file? source.path = some (.text text) ∧ compileModule text options = .ok compiled := by
  rw [verdict]
  cases tree.file? source.path with
  | none => simp
  | some content =>
    cases content with
    | bytes => simp
    | text text => cases result : compileModule text options <;> simp [result, Except.mapError]

theorem buildFile_of_error (failed : verdict options tree source = .error error) :
    buildFile options source output tree = (.error error, tree) := by
  rw [verdict] at failed
  rw [buildFile]
  cases held : tree.file? source.path with
  | none => simpa [held] using failed
  | some content =>
    cases content with
    | bytes => simpa [held] using failed
    | text text =>
      cases compiled : compileModule text options with
      | ok => simp [held, compiled, Except.mapError] at failed
      | error => simpa [held, compiled, Except.mapError] using failed

theorem buildFile_of_ok (done : verdict options tree source = .ok compiled) (clear : tree.Clear output.path) :
    buildFile options source output tree = (.ok compiled.templates, tree.emit output.path compiled.code) := by
  obtain ⟨_, held, result⟩ := verdict_eq_ok_iff.mp done
  have unblocked : tree.blocked output.path.dropLast = false := by
    rw [← Bool.not_eq_true, blocked_iff]
    rintro ⟨_, front, present⟩
    rw [clear.unblocked ((prefix_dropLast_iff clear.ne_nil).mp front)] at present
    cases present
  simp [buildFile, held, result, Place.parent, unblocked, clear.free_makeDirectory, FileTree.emit]

end

/-! ### All sources -/

structure Finished where
  source : Place
  relative : Path
  compiled : CompiledModule

namespace Finished

def origin (file : Finished) : Place × Path := (file.source, file.relative)

def built (output : Place) (file : Finished) : BuiltFile :=
  ⟨file.source, output.below file.relative, file.compiled.templates⟩

end Finished

/-- What a tree becomes when the code of finished files is written below an output directory: it holds that code at
their paths from there, the directories that lead to these, and all else that it held before. -/
structure Written (tree : FileTree) (output : Path) (done : List Finished) (after : FileTree) : Prop where
  written : ∀ file ∈ done, after.file? (output ++ file.relative) = some (.text file.compiled.code)
  kept : ∀ path, (∀ file ∈ done, path ≠ output ++ file.relative) → after.file? path = tree.file? path
  directories : ∀ path, after.isDirectory path ↔
    tree.isDirectory path ∨ ∃ file ∈ done, path.Above (output ++ file.relative)

/-- How a run ends with sources left: with all that was built if none is, else with why the first of them cannot be
compiled, in a message that names it unless the compiler crashed on it. -/
def Ends (options : Options) (tree : FileTree) (output : Place) (done : List Finished) :
    List (Place × Path) → Except BuildError (List BuiltFile) → Prop
  | [], result => result = .ok (done.map (·.built output))
  | (source, _) :: _, result =>
    ∃ error, verdict options tree source = .error error ∧ (error.Names source ∨ error = .crashed) ∧ result = .error error

@[simp] theorem Place.path_below (place : Place) (relative : Path) :
    (place.below relative).path = place.path ++ relative := by
  rw [Place.below]
  split
  case isTrue none => rw [isEmpty_iff.mp none, append_nil]
  case isFalse => rfl

theorem Written.nil (tree : FileTree) (output : Path) : Written tree output [] tree where
  written := by simp
  kept _ _ := rfl
  directories := by simp

theorem Written.cons {after : FileTree} {output : Path}
    (clear : tree.Clear (output ++ file.relative)) (others : ∀ other ∈ done, output ++ file.relative ≠ output ++ other.relative)
    (later : Written (tree.emit (output ++ file.relative) file.compiled.code) output done after) :
    Written tree output (file :: done) after where
  written other mem := by
    rcases mem_cons.mp mem with rfl | mem
    · rw [later.kept _ others, file?_emit, if_pos rfl]
    · exact later.written other mem
  kept path differs := by
    rw [later.kept path fun other mem => differs other (mem_cons_of_mem _ mem), file?_emit,
      if_neg (differs file mem_cons_self)]
  directories path := by
    rw [later.directories, clear.isDirectory_emit, or_assoc]
    simp

theorem Ends.cons {options : Options} {tree next : FileTree} {output : Place}
    {left : List (Place × Path)} {result : Except BuildError (List BuiltFile)}
    (same : ∀ source ∈ left, verdict options next source.1 = verdict options tree source.1)
    (ends : Ends options next output done left result) :
    Ends options tree output (file :: done) left (result.map (file.built output :: ·)) := by
  cases left with
  | nil =>
    rw [Ends] at ends
    subst ends
    rfl
  | cons =>
    obtain ⟨error, failed, names, rfl⟩ := ends
    exact ⟨error, (same _ mem_cons_self).symm.trans failed, names, rfl⟩

theorem buildAll_cons_of_ok {output : Place} (done : verdict options tree file.source = .ok file.compiled)
    (clear : tree.Clear (output.path ++ file.relative)) (rest : List (Place × Path)) :
    buildAll options output (file.origin :: rest) tree =
      let later := buildAll options output rest (tree.emit (output.path ++ file.relative) file.compiled.code)
      (later.1.map (file.built output :: ·), later.2) := by
  have target := output.path_below file.relative
  rw [Finished.origin, buildAll, buildFile_of_ok done (target.symm ▸ clear), target]
  dsimp only
  cases buildAll options output rest (tree.emit (output.path ++ file.relative) file.compiled.code) with
  | mk result => cases result <;> rfl

theorem buildAll_ends (options : Options) (output : Place) {found : List (Place × Path)}
    (clear : ∀ source ∈ found, tree.Clear (output.path ++ source.2))
    (apart : found.Pairwise fun s t => Path.Apart (output.path ++ s.2) (output.path ++ t.2))
    (unwritten : ∀ s ∈ found, ∀ t ∈ found, s.1.path ≠ output.path ++ t.2) :
    ∃ done left, done.map Finished.origin ++ left = found ∧
      (∀ file ∈ done, verdict options tree file.source = .ok file.compiled) ∧
      Ends options tree output done left (buildAll options output found tree).1 ∧
      Written tree output.path done (buildAll options output found tree).2 := by
  induction found generalizing tree with
  | nil => exact ⟨[], [], rfl, by simp, rfl, .nil tree output.path⟩
  | cons first rest ih =>
    obtain ⟨source, relative⟩ := first
    cases made : verdict options tree source with
    | error error =>
      refine ⟨[], (source, relative) :: rest, rfl, by simp, ?_, ?_⟩ <;> rw [buildAll, buildFile_of_error made]
      · exact ⟨error, made, names_of_verdict made, rfl⟩
      · exact .nil tree output.path
    | ok compiled =>
      let file : Finished := ⟨source, relative, compiled⟩
      let next := tree.emit (output.path ++ relative) compiled.code
      have clearFirst : tree.Clear (output.path ++ relative) := clear _ mem_cons_self
      obtain ⟨apartFirst, apartRest⟩ := pairwise_cons.mp apart
      -- The sources left read as before, and their paths are as clear as before.
      have same : ∀ s ∈ rest, verdict options next s.1 = verdict options tree s.1 := fun s mem =>
        verdict_congr (by rw [file?_emit, if_neg (unwritten s (mem_cons_of_mem _ mem) _ mem_cons_self)])
      obtain ⟨done, left, parts, made', ends, written⟩ := @ih next
        (fun s mem => clearFirst.emit (clear s (mem_cons_of_mem _ mem)) _ (apartFirst s mem)) apartRest
        (fun s s_member t t_member =>
          unwritten s (mem_cons_of_mem _ s_member) t (mem_cons_of_mem _ t_member))
      have origins : ∀ other ∈ done, other.origin ∈ rest := fun other mem =>
        parts ▸ mem_append_left _ (mem_map_of_mem mem)
      refine ⟨file :: done, left, by rw [map_cons, cons_append, parts]; rfl, ?_, ?_, ?_⟩
      · intro other mem
        rcases mem_cons.mp mem with rfl | mem
        · exact made
        · exact (same _ (origins other mem)).symm.trans (made' other mem)
      · rw [show (source, relative) = file.origin from rfl, buildAll_cons_of_ok made clearFirst]
        exact ends.cons fun s mem => same s (parts ▸ mem_append_right _ mem)
      · rw [show (source, relative) = file.origin from rfl, buildAll_cons_of_ok made clearFirst]
        refine Written.cons clearFirst (fun other mem equal => ?_) written
        exact (apartFirst _ (origins other mem)).1 (equal ▸ prefix_rfl)

/-! ### The sources of an input -/

/-- Whether a path is a source of an input: the input itself where that is a file, else a source file below it. -/
def FileTree.IsSource (tree : FileTree) (input path : Path) : Prop :=
  if (tree.file? input).isSome then path = input else input <+: path ∧ (tree.file? path).isSome ∧ path.isSource

def FileTree.base (tree : FileTree) (input : Path) : Path :=
  if (tree.file? input).isSome then input.dropLast else input

/-- The sources of an input in the order of their paths, each at its place and with its path from the base. -/
structure Sources (tree : FileTree) (input : Place) (found : List (Place × Path)) : Prop where
  mem_iff : ∀ path, path ∈ found.map (·.1.path) ↔ tree.IsSource input.path path
  sorted : (found.map (·.1.path)).Pairwise (· < ·)
  based : ∀ source ∈ found, source.1.path = tree.base input.path ++ source.2
  placed : ∀ source ∈ found, source.1 = if (tree.file? input.path).isSome then input else input.below source.2

section
variable {tree : FileTree} {input : Place} {found : List (Place × Path)}

theorem sources_of_file (present : (tree.file? input.path).isSome) :
    sources tree input = .ok [(input, input.path.drop (input.path.length - 1))] := by
  rw [sources, if_pos present]

theorem sources_of_directory (sound : tree.Sound) (notFile : ¬ (tree.file? input.path).isSome)
    (is : tree.isDirectory input.path) :
    sources tree input = if tree.sourcesBelow input.path = [] then .error (.noSources input)
      else .ok (((tree.sourcesBelow input.path).mergeSort Path.le).map fun path =>
        (input.below (path.drop input.path.length), path.drop input.path.length)) := by
  have searched : (collect tree tree.directoryBound [input.path] []).Perm (tree.sourcesBelow input.path) := by
    have bound : (tree.within input.path).card ≤ tree.directoryBound :=
      (Finset.card_le_card (Finset.filter_subset _ _)).trans tree.card_passed_le
    simpa using @collect_perm tree sound tree.directoryBound [input.path] [] (by simpa using is) (by simpa using bound)
  rw [sources, if_neg notFile, if_pos is, ← Path.mergeSort_eq_of_perm searched]
  cases found : collect tree tree.directoryBound [input.path] [] with
  | nil => rw [if_pos (found ▸ searched).nil_eq.symm]
  | cons path rest =>
    have some : tree.sourcesBelow input.path ≠ [] := fun none =>
      cons_ne_nil path rest (none ▸ found ▸ searched).eq_nil
    rw [if_neg some]

theorem exists_sources (sound : tree.Sound) (present : (tree.file? input.path).isSome ∨ tree.isDirectory input.path) :
    ∃ found, Sources tree input found ∧
      sources tree input = if found = [] then .error (.noSources input) else .ok found := by
  by_cases file : (tree.file? input.path).isSome
  · have some : input.path ≠ [] := fun root => by
      have is := sound.apart file
      simp [root, isDirectory] at is
    refine ⟨_, ?_, (sources_of_file file).trans (if_neg (cons_ne_nil _ _)).symm⟩
    refine ⟨fun path => by simp [FileTree.IsSource, file], by simp, ?_, by simp [file]⟩
    simp [FileTree.base, file, dropLast_eq_take]
  · have is := present.resolve_left file
    have below (path : Path) : path ∈ (tree.sourcesBelow input.path).mergeSort Path.le ↔
        input.path.Above path ∧ (tree.file? path).isSome ∧ path.isSource := by
      rw [mem_mergeSort, mem_sourcesBelow]
      exact and_left_comm
    refine ⟨_, ?_, (sources_of_directory sound file is).trans (if_congr ?_ rfl rfl)⟩
    · have paths : (((tree.sourcesBelow input.path).mergeSort Path.le).map fun path =>
          (input.below (path.drop input.path.length), path.drop input.path.length)).map (·.1.path) =
            (tree.sourcesBelow input.path).mergeSort Path.le := by
        rw [map_map]
        refine (map_congr_left fun path mem => ?_).trans (map_id _)
        obtain ⟨_, rfl⟩ := ((below path).mp mem).1.1
        simp
      constructor
      · intro path
        rw [paths, below, FileTree.IsSource, if_neg file]
        refine and_congr_left fun source => ⟨And.left, fun front => ⟨front, ?_⟩⟩
        rintro rfl
        exact file source.1
      · rw [paths]
        exact Path.pairwise_lt_mergeSort (sound.nodup_sourcesBelow _)
      · simp [FileTree.base, file]
      · simp [file]
    · rw [map_eq_nil_iff, ← length_eq_zero_iff, ← length_eq_zero_iff, length_mergeSort]

theorem Sources.mem (is : Sources tree input found) {source : Place × Path} (mem : source ∈ found) :
    tree.IsSource input.path source.1.path :=
  (is.mem_iff _).mp (mem_map_of_mem mem)

theorem FileTree.IsSource.isFile {input path : Path} (is : tree.IsSource input path) : (tree.file? path).isSome := by
  rw [FileTree.IsSource] at is
  split at is
  case isTrue file => exact is ▸ file
  case isFalse => exact is.2.1

theorem FileTree.IsSource.inInput {input path : Path} (is : tree.IsSource input path) : input <+: path := by
  rw [FileTree.IsSource] at is
  split at is
  case isTrue => exact is ▸ prefix_rfl
  case isFalse => exact is.1

theorem Sources.apart (sound : tree.Sound) (is : Sources tree input found) (output : Path) :
    found.Pairwise fun s t => Path.Apart (output ++ s.2) (output ++ t.2) := by
  have distinct := pairwise_map.mp is.sorted
  refine distinct.imp_of_mem fun {s t} s_member t_member before => ?_
  have s_file := (is.mem s_member).isFile
  have t_file := (is.mem t_member).isFile
  rw [is.based s s_member, is.based t t_member] at before
  rw [is.based s s_member] at s_file
  rw [is.based t t_member] at t_file
  rw [Path.Apart, prefix_append_right_inj, prefix_append_right_inj]
  constructor
  · intro front
    exact sound.not_above s_file t_file ⟨(prefix_append_right_inj _).mpr front, before.ne⟩
  · intro front
    exact sound.not_above t_file s_file ⟨(prefix_append_right_inj _).mpr front, before.ne'⟩

end

/-! ### The same tree listed in another order -/

section
variable {options : Options} {tree other : FileTree}

theorem FileTree.Agrees.sources (agrees : tree.Agrees other) (sound : tree.Sound) (alsoSound : other.Sound)
    (input : Place) : sources tree input = sources other input := by
  by_cases file : (tree.file? input.path).isSome
  · rw [sources_of_file file, sources_of_file (agrees.file? _ ▸ file)]
  · by_cases is : tree.isDirectory input.path
    · have same : (tree.sourcesBelow input.path).Perm (other.sourcesBelow input.path) := by
        rw [perm_ext_iff_of_nodup (sound.nodup_sourcesBelow _) (alsoSound.nodup_sourcesBelow _)]
        simp [mem_sourcesBelow, agrees.file?]
      rw [sources_of_directory sound file is,
        sources_of_directory alsoSound (agrees.file? _ ▸ file) (agrees.isDirectory _ ▸ is),
        Path.mergeSort_eq_of_perm same]
      refine if_congr ?_ rfl rfl
      rw [← length_eq_zero_iff, ← length_eq_zero_iff, same.length_eq]
    · rw [Build.sources, Build.sources, ← agrees.file?, ← agrees.isDirectory, if_neg file, if_neg is, if_neg file,
        if_neg is]

theorem FileTree.Agrees.buildFile (agrees : tree.Agrees other) (source output : Place) :
    (buildFile options source output tree).1 = (buildFile options source output other).1 ∧
      (buildFile options source output tree).2.Agrees (buildFile options source output other).2 := by
  rw [Build.buildFile, Build.buildFile, ← agrees.file?]
  split
  case h_1 text _ =>
    cases compileModule text options with
    | error => exact ⟨rfl, agrees⟩
    | ok =>
      have made := agrees.makeDirectory output.parent.path
      dsimp only
      rw [← agrees.blocked, ← made.isDirectory]
      split
      case isTrue => exact ⟨rfl, agrees⟩
      case isFalse =>
        split
        case isTrue => exact ⟨rfl, made⟩
        case isFalse free => exact ⟨rfl, made.write (by simpa using free) _⟩
  case h_2 => exact ⟨rfl, agrees⟩

theorem FileTree.Agrees.buildAll (agrees : tree.Agrees other) (output : Place) (found : List (Place × Path)) :
    (buildAll options output found tree).1 = (buildAll options output found other).1 ∧
      (buildAll options output found tree).2.Agrees (buildAll options output found other).2 := by
  induction found generalizing tree other with
  | nil => exact ⟨rfl, agrees⟩
  | cons first rest ih =>
    obtain ⟨source, relative⟩ := first
    obtain ⟨sameResult, after⟩ := @FileTree.Agrees.buildFile options tree other agrees source (output.below relative)
    rw [Build.buildAll, Build.buildAll]
    generalize Build.buildFile options source (output.below relative) tree = here at sameResult after ⊢
    generalize Build.buildFile options source (output.below relative) other = there at sameResult after ⊢
    obtain ⟨result, tree⟩ := here
    obtain ⟨_, other⟩ := there
    obtain rfl := sameResult
    cases result with
    | error => exact ⟨rfl, after⟩
    | ok =>
      obtain ⟨sameRest, last⟩ := ih after
      dsimp only
      generalize Build.buildAll options output rest tree = here at sameRest last ⊢
      generalize Build.buildAll options output rest other = there at sameRest last ⊢
      obtain ⟨result, _⟩ := here
      obtain ⟨_, _⟩ := there
      obtain rfl := sameRest
      cases result with
      | error => exact ⟨rfl, last⟩
      | ok => exact ⟨rfl, last⟩

theorem FileTree.Agrees.build (agrees : tree.Agrees other) (sound : tree.Sound) (alsoSound : other.Sound)
    (output input : Place) :
    (build options output input tree).1 = (build options output input other).1 ∧
      (build options output input tree).2.Agrees (build options output input other).2 := by
  rw [Build.build, Build.build, agrees.sources sound alsoSound]
  split
  · exact ⟨rfl, agrees⟩
  · exact agrees.buildAll output _

end

/-- Building an input of a sound tree into an output directory apart from it, where nothing blocks the outputs: its
sources are the input itself or the source files below it, compiled in the order of their paths, each to its own path
under the output directory; the first that cannot be compiled ends the run with an error that names it, or with a crash
of the compiler, when the outputs before it are written and every other path is as it was. Another listing of the same
tree gives the same. -/
theorem build_writes_sources_in_order (options : Options) (output input : Place) {tree : FileTree} (sound : tree.Sound)
    (present : (tree.file? input.path).isSome ∨ tree.isDirectory input.path) (apart : output.path.Apart input.path)
    (clear : ∀ relative, tree.IsSource input.path (tree.base input.path ++ relative) →
      tree.Clear (output.path ++ relative)) :
    (∃ found, Sources tree input found ∧ (found.map fun source => output.path ++ source.2).Nodup ∧
      (found = [] → build options output input tree = (.error (.noSources input), tree)) ∧
      (found ≠ [] → ∃ done left, done.map Finished.origin ++ left = found ∧
        (∀ file ∈ done, verdict options tree file.source = .ok file.compiled) ∧
        Ends options tree output done left (build options output input tree).1 ∧
        Written tree output.path done (build options output input tree).2)) ∧
    ∀ other : FileTree, other.Sound → tree.Agrees other →
      (build options output input tree).1 = (build options output input other).1 ∧
        (build options output input tree).2.Agrees (build options output input other).2 := by
  refine ⟨?_, fun other alsoSound agrees => agrees.build sound alsoSound output input⟩
  obtain ⟨found, is, sourced⟩ := exists_sources sound present
  have unrelated := is.apart sound output.path
  have different : (found.map fun source => output.path ++ source.2).Nodup :=
    pairwise_map.mpr (unrelated.imp fun apart same => apart.1 (prefix_iff_eq_append.mpr (by simp [same])))
  refine ⟨found, is, different, ?_, ?_⟩
  · intro none
    rw [build, sourced, if_pos none]
  · intro some
    rw [build, sourced, if_neg some]
    refine buildAll_ends options output (fun source member => clear _ ?_) unrelated fun s s_member t t_member same => ?_
    · exact is.based source member ▸ is.mem member
    · -- A source lies in the input and an output in the output directory, of which one would lead to the other.
      have inInput : input.path <+: output.path ++ t.2 := same ▸ (is.mem s_member).inInput
      rcases prefix_or_prefix_of_prefix inInput (prefix_append output.path t.2) with front | front
      · exact apart.2 front
      · exact apart.1 front

def workshop : FileTree where
  entries := [
    (["src", "b.rs"], .file (.bytes [0xff])),
    (["src", "notes.txt"], .file (.text "")),
    (["src", "a.rs"], .file (.text "fn a() {}"))]

theorem file_workshop (present : (workshop.file? path).isSome) :
    path = ["src", "b.rs"] ∨ path = ["src", "notes.txt"] ∨ path = ["src", "a.rs"] := by
  have listed := mem_files.mpr present
  rw [show workshop.files = [["src", "b.rs"], ["src", "notes.txt"], ["src", "a.rs"]] from rfl] at listed
  simpa using listed

theorem sound_workshop : workshop.Sound where
  once := by decide
  apart present := by rcases file_workshop present with rfl | rfl | rfl <;> decide

theorem clear_workshop (name : String) : workshop.Clear ["out", name] where
  free := by
    rw [← Bool.not_eq_true, isDirectory_iff]
    simp [workshop, Path.Above]
  unblocked {p} above := by
    by_contra some
    rcases file_workshop (Option.isSome_iff_ne_none.mpr some) with rfl | rfl | rfl <;> simp [Path.Above] at above

theorem build_writes_sources_in_order_workshop :
    ∃ found done left, Sources workshop ⟨["src"], "src"⟩ found ∧ done.map Finished.origin ++ left = found ∧
      Ends {} workshop ⟨["out"], "out"⟩ done left (build {} ⟨["out"], "out"⟩ ⟨["src"], "src"⟩ workshop).1 ∧
      Written workshop ["out"] done (build {} ⟨["out"], "out"⟩ ⟨["src"], "src"⟩ workshop).2 := by
  have noFile : ¬ (workshop.file? ["src"]).isSome := by decide
  obtain ⟨⟨found, is, -, -, runs⟩, -⟩ := build_writes_sources_in_order {} ⟨["out"], "out"⟩ ⟨["src"], "src"⟩
    sound_workshop (by decide) ⟨by decide, by decide⟩ fun relative source => by
      rw [FileTree.base, if_neg noFile] at source
      rcases file_workshop source.isFile with same | same | same <;>
        obtain rfl := cons.inj same |>.2 <;> exact clear_workshop _
  have first : ["src", "a.rs"] ∈ found.map (·.1.path) := (is.mem_iff _).mpr (by
    rw [FileTree.IsSource, if_neg noFile]
    decide)
  have some : found ≠ [] := by
    rintro rfl
    cases first
  obtain ⟨done, left, parts, -, ends, written⟩ := runs some
  exact ⟨found, done, left, is, parts, ends, written⟩

/-- A tree with one source, on which the compiler crashes. -/
def overrunTree : FileTree := ⟨[(["src", "a.rs"], .file (.text overrun))]⟩

theorem crash_names_no_source :
    build {} ⟨["out"], "out"⟩ ⟨["src"], "src"⟩ overrunTree = (.error .crashed, overrunTree) ∧
      ¬ BuildError.crashed.Names ⟨["src", "a.rs"], "src/a.rs"⟩ := by
  constructor
  · have found : sources overrunTree ⟨["src"], "src"⟩ = .ok [(⟨["src", "a.rs"], "src/a.rs"⟩, ["a.rs"])] := by cbv
    have failed : verdict {} overrunTree ⟨["src", "a.rs"], "src/a.rs"⟩ = .error .crashed := by
      rw [verdict, show overrunTree.file? ["src", "a.rs"] = some (.text overrun) from rfl]
      dsimp only
      rw [compile_overrun]
      rfl
    rw [build, found]
    dsimp only
    rw [buildAll, buildFile_of_error failed]
  · intro named
    have long := named.length_le
    revert long
    decide

end LiveMarkup.Build
