import LiveMarkup.Build.Run
import Mathlib.Algebra.Order.BigOperators.Group.Finset
import Mathlib.Algebra.Order.Ring.Nat
import Mathlib.Data.List.Infix
import Mathlib.Data.List.Perm.Basic
import Mathlib.Data.String.Basic
import Mathlib.Data.List.Lex

/-!
Trees of files as what they say of each path: whether it is a file and what that holds, and whether it is a
directory. Making directories and writing files change this at known paths only, and searching a directory finds
the files below it whatever order the directories list their names in.
-/

namespace LiveMarkup.Build
open List hiding isEmpty_iff

namespace Path

variable {p q : Path} {paths : List Path}

def Above (p q : Path) : Prop := p <+: q ∧ p ≠ q

theorem above_iff_length : p.Above q ↔ p <+: q ∧ p.length < q.length := by
  refine and_congr_right fun front => ?_
  constructor
  · intro other
    exact front.length_le.lt_of_ne fun same => other (front.eq_of_length same)
  · rintro shorter rfl
    exact shorter.false

theorem above_append : p.Above (p ++ q) ↔ q ≠ [] := by
  simp [Above, self_eq_append_right]

theorem Above.further {r : Path} (first : p.Above q) (second : q <+: r) : p.Above r := by
  rw [above_iff_length] at first ⊢
  exact ⟨first.1.trans second, first.2.trans_le second.length_le⟩

theorem Above.exists_name (above : p.Above q) : ∃ name, p ++ [name] <+: q := by
  obtain ⟨⟨rest, rfl⟩, -⟩ := id above
  cases rest with
  | nil => exact absurd rfl (above_append.mp above)
  | cons name rest => exact ⟨name, rest, by simp⟩

theorem le_iff (p q : Path) : Path.le p q = true ↔ p ≤ q := by
  rw [← not_lt]
  induction p generalizing q with
  | nil => simp [Path.le]
  | cons _ _ ih =>
    cases q with
    | nil => simp [Path.le]
    | cons =>
      rw [Path.le, cons_lt_cons_iff, not_or, not_lt]
      split
      case isTrue same => simp [same, ih]
      case isFalse other => simp [other, Ne.symm other, lt_iff_le_and_ne]

theorem pairwise_mergeSort (paths : List Path) : (paths.mergeSort Path.le).Pairwise (· ≤ ·) := by
  refine (List.pairwise_mergeSort (fun p q r => ?_) (fun p q => ?_) paths).imp fun {p q} le => (le_iff p q).mp le
  · simpa only [le_iff] using le_trans
  · simpa only [Bool.or_eq_true, le_iff] using le_total p q

theorem pairwise_lt_mergeSort (once : paths.Nodup) : (paths.mergeSort Path.le).Pairwise (· < ·) := by
  have distinct := (paths.mergeSort_perm Path.le).nodup_iff.mpr once
  exact (pairwise_mergeSort paths).imp₂ (fun _ _ => lt_of_le_of_ne) distinct

theorem mergeSort_eq_of_perm {others : List Path} (same : paths.Perm others) :
    paths.mergeSort Path.le = others.mergeSort Path.le :=
  (((paths.mergeSort_perm Path.le).trans same).trans (others.mergeSort_perm Path.le).symm).eq_of_pairwise
    (fun _ _ _ _ => le_antisymm) (pairwise_mergeSort paths) (pairwise_mergeSort others)

end Path

namespace FileTree

variable {tree other : FileTree} {path directory file : Path}

/-! ### What a tree says of a path -/

theorem isSome_file?_iff : (tree.file? path).isSome ↔ ∃ content, (path, .file content) ∈ tree.entries := by
  rw [file?, findSome?_isSome_iff]
  constructor
  · rintro ⟨⟨p, entry⟩, mem, found⟩
    cases entry with
    | directory => cases found
    | file content =>
      by_cases same : p = path
      · exact ⟨content, same ▸ mem⟩
      · simp [same] at found
  · rintro ⟨_, mem⟩
    exact ⟨_, mem, by simp⟩

theorem mem_files : path ∈ tree.files ↔ (tree.file? path).isSome := by
  rw [isSome_file?_iff, files, mem_filterMap]
  constructor
  · rintro ⟨⟨_, entry⟩, mem, found⟩
    cases entry with
    | directory => cases found
    | file content => exact ⟨content, (Option.some.inj found) ▸ mem⟩
  · rintro ⟨_, mem⟩
    exact ⟨_, mem, rfl⟩

theorem isDirectory_iff : tree.isDirectory path ↔
    path = [] ∨ (path, .directory) ∈ tree.entries ∨ ∃ entry ∈ tree.entries, path.Above entry.1 := by
  rw [isDirectory, Bool.or_eq_true, List.isEmpty_iff, any_eq_true]
  refine or_congr_right ?_
  constructor
  · rintro ⟨⟨p, entry⟩, mem, leads⟩
    cases entry with
    | file => exact .inr ⟨_, mem, Path.above_iff_length.mpr (by simpa using leads)⟩
    | directory =>
      by_cases same : path = p
      · exact .inl (same ▸ mem)
      · exact .inr ⟨_, mem, by simpa using leads, same⟩
  · rintro (mem | ⟨⟨_, entry⟩, mem, above⟩)
    · exact ⟨_, mem, by simp⟩
    · refine ⟨_, mem, ?_⟩
      cases entry with
      | file => simpa using Path.above_iff_length.mp above
      | directory => simpa using above.1

theorem blocked_iff : tree.blocked path ↔ ∃ p, p <+: path ∧ (tree.file? p).isSome := by
  simp [blocked, ← mem_files, and_comm]

theorem isDirectory_of_above_file (above : path.Above file) (present : (tree.file? file).isSome) : tree.isDirectory path := by
  obtain ⟨_, mem⟩ := isSome_file?_iff.mp present
  exact isDirectory_iff.mpr (.inr (.inr ⟨_, mem, above⟩))

/-- A tree that can be: each path has one entry, and no file is a directory. -/
structure Sound (tree : FileTree) : Prop where
  once : (tree.entries.map Prod.fst).Nodup
  apart : ∀ {path}, (tree.file? path).isSome → tree.isDirectory path = false

/-- Two trees that say the same of every path, in whatever order they list it. -/
structure Agrees (tree other : FileTree) : Prop where
  file? : ∀ path, tree.file? path = other.file? path
  isDirectory : ∀ path, tree.isDirectory path = other.isDirectory path

theorem Agrees.blocked (agrees : tree.Agrees other) (path : Path) : tree.blocked path = other.blocked path := by
  rw [Bool.eq_iff_iff, blocked_iff, blocked_iff]
  simp only [agrees.file?]

theorem Sound.nodup_files (sound : tree.Sound) : tree.files.Nodup := by
  have front : tree.files.Sublist (tree.entries.map Prod.fst) := by
    rw [files]
    induction tree.entries with
    | nil => exact .slnil
    | cons entry _ ih =>
      obtain ⟨p, _ | _⟩ := entry
      · exact ih.cons_cons p
      · exact ih.cons p
  exact front.nodup sound.once

theorem Sound.not_above (sound : tree.Sound) {other : Path} (present : (tree.file? file).isSome)
    (below : (tree.file? other).isSome) : ¬ file.Above other := by
  intro above
  exact absurd (isDirectory_of_above_file above below) (by simp [sound.apart present])

/-! ### Writing -/

theorem file?_append (entries others : List (Path × Entry)) (p : Path) :
    file? ⟨entries ++ others⟩ p = (file? ⟨entries⟩ p).or (file? ⟨others⟩ p) := findSome?_append

theorem file?_filter (entries : List (Path × Entry)) (path p : Path) :
    file? ⟨entries.filter (·.1 != path)⟩ p = if p = path then none else file? ⟨entries⟩ p := by
  split
  case isTrue same =>
    by_contra found
    obtain ⟨_, mem⟩ := isSome_file?_iff.mp (Option.isSome_iff_ne_none.mpr found)
    simpa [same] using (mem_filter.mp mem).2
  case isFalse other =>
    induction entries with
    | nil => rfl
    | cons entry _ ih =>
      rw [← singleton_append, filter_append, file?_append, file?_append, ih]
      congr 1
      obtain ⟨q, _ | _⟩ := entry
      · by_cases same : q = path
        · simp [file?, same, Ne.symm other]
        · simp [same]
      · by_cases same : q = path <;> simp [file?, same]

theorem file?_write (tree : FileTree) (path p : Path) (text : String) :
    (tree.write path text).file? p = if p = path then some (.text text) else tree.file? p := by
  rw [write, file?_append, file?_filter]
  split
  case isTrue same => simp [file?, same]
  case isFalse other => simp [file?, Ne.symm other]

theorem isDirectory_write (free : tree.isDirectory path = false) (p : Path) (text : String) :
    (tree.write path text).isDirectory p ↔ tree.isDirectory p ∨ p.Above path := by
  have noEntry : (path, Entry.directory) ∉ tree.entries := fun mem =>
    absurd (isDirectory_iff.mpr (.inr (.inl mem))) (by simp [free])
  simp only [isDirectory_iff, write, mem_append, mem_filter, mem_singleton]
  constructor
  · rintro (root | (⟨mem, -⟩ | same) | ⟨entry, ⟨mem, -⟩ | rfl, above⟩)
    · exact .inl (.inl root)
    · exact .inl (.inr (.inl mem))
    · cases same
    · exact .inl (.inr (.inr ⟨entry, mem, above⟩))
    · exact .inr above
  · rintro ((root | mem | ⟨entry, mem, above⟩) | above)
    · exact .inl root
    · refine .inr (.inl (.inl ⟨mem, ?_⟩))
      have other : p ≠ path := fun same => noEntry (same ▸ mem)
      simpa using other
    · -- An entry for the path itself is replaced by one that leads through the same directories.
      by_cases same : entry.1 = path
      · exact .inr (.inr ⟨_, .inr rfl, same ▸ above⟩)
      · exact .inr (.inr ⟨entry, .inl ⟨mem, by simpa using same⟩, above⟩)
    · exact .inr (.inr ⟨_, .inr rfl, above⟩)

theorem file?_makeDirectory (tree : FileTree) (path p : Path) : (tree.makeDirectory path).file? p = tree.file? p := by
  rw [makeDirectory]
  split
  · rfl
  · simp [file?, findSome?_append]

theorem isDirectory_makeDirectory (tree : FileTree) (path p : Path) :
    (tree.makeDirectory path).isDirectory p ↔ tree.isDirectory p ∨ p <+: path := by
  rw [makeDirectory]
  split
  case isTrue there =>
    refine ⟨.inl, fun known => known.elim id fun front => ?_⟩
    by_cases same : p = path
    · exact same ▸ there
    · rcases isDirectory_iff.mp there with root | mem | ⟨entry, mem, above⟩
      · exact isDirectory_iff.mpr (.inl (prefix_nil.mp (root ▸ front)))
      · exact isDirectory_iff.mpr (.inr (.inr ⟨_, mem, front, same⟩))
      · have leads : p.Above path := ⟨front, same⟩
        exact isDirectory_iff.mpr (.inr (.inr ⟨_, mem, leads.further above.1⟩))
  case isFalse =>
    simp only [isDirectory_iff, mem_append, mem_singleton]
    constructor
    · rintro (root | (mem | same) | ⟨entry, mem | rfl, above⟩)
      · exact .inl (.inl root)
      · exact .inl (.inr (.inl mem))
      · cases same
        exact .inr prefix_rfl
      · exact .inl (.inr (.inr ⟨entry, mem, above⟩))
      · exact .inr above.1
    · rintro ((root | mem | ⟨entry, mem, above⟩) | front)
      · exact .inl root
      · exact .inr (.inl (.inl mem))
      · exact .inr (.inr ⟨entry, .inl mem, above⟩)
      · by_cases same : p = path
        · exact .inr (.inl (.inr (by rw [same])))
        · exact .inr (.inr ⟨_, .inr rfl, front, same⟩)

theorem Agrees.write (agrees : tree.Agrees other) (free : tree.isDirectory path = false) (text : String) :
    (tree.write path text).Agrees (other.write path text) where
  file? p := by simp only [file?_write, agrees.file?]
  isDirectory p := by
    rw [Bool.eq_iff_iff, isDirectory_write free, isDirectory_write (agrees.isDirectory path ▸ free),
      agrees.isDirectory]

theorem Agrees.makeDirectory (agrees : tree.Agrees other) (path : Path) :
    (tree.makeDirectory path).Agrees (other.makeDirectory path) where
  file? p := by simp only [file?_makeDirectory, agrees.file?]
  isDirectory p := by
    rw [Bool.eq_iff_iff, isDirectory_makeDirectory, isDirectory_makeDirectory, agrees.isDirectory]

/-! ### Listing -/

theorem nodup_eraseDups (names : List String) : names.eraseDups.Nodup := by
  induction n : names.length using Nat.strongRecOn generalizing names with
  | ind n ih =>
    cases names with
    | nil => exact nodup_nil
    | cons =>
      rw [eraseDups_cons, nodup_cons]
      refine ⟨by simp, ih _ ?_ _ rfl⟩
      rw [← n]
      exact Nat.lt_succ_of_le (length_filter_le _ _)

theorem mem_listing {name : String} : name ∈ tree.listing path ↔ ∃ entry ∈ tree.entries, path ++ [name] <+: entry.1 := by
  rw [listing, mem_eraseDups, mem_filterMap]
  refine exists_congr fun entry => and_congr_right fun _ => ?_
  constructor
  · intro first
    dsimp only at first
    split at first
    case isTrue front =>
      obtain ⟨rest, whole⟩ := isPrefixOf_iff_prefix.mp front
      rw [← whole, drop_left] at first
      rw [← whole, prefix_append_right_inj]
      cases rest with
      | nil => cases first
      | cons => simpa using first.symm
    case isFalse => cases first
  · rintro ⟨_, whole⟩
    simp [← whole]

def inside (tree : FileTree) (directory : Path) : List Path :=
  (tree.listing directory).map fun name => directory ++ [name]

theorem nodup_inside (tree : FileTree) (directory : Path) : (tree.inside directory).Nodup :=
  (nodup_eraseDups _).map fun name other same => by simpa using same

theorem above_of_mem_inside (listed : path ∈ tree.inside directory) : directory.Above path := by
  obtain ⟨_, -, rfl⟩ := mem_map.mp listed
  exact Path.above_append.mpr (cons_ne_nil _ _)

theorem eq_of_mem_inside {p q : Path} (p_listed : p ∈ tree.inside directory) (q_listed : q ∈ tree.inside directory)
    (p_leads : p <+: path) (q_leads : q <+: path) : p = q := by
  obtain ⟨_, -, rfl⟩ := mem_map.mp p_listed
  obtain ⟨_, -, rfl⟩ := mem_map.mp q_listed
  have fronts := prefix_or_prefix_of_prefix p_leads q_leads
  simpa [prefix_append_right_inj, eq_comm] using fronts

theorem isFile_of_mem_inside (listed : path ∈ tree.inside directory) (other : tree.isDirectory path = false) :
    (tree.file? path).isSome := by
  obtain ⟨name, named, rfl⟩ := mem_map.mp listed
  obtain ⟨⟨p, entry⟩, mem, front⟩ := mem_listing.mp named
  by_cases same : directory ++ [name] = p
  · cases entry with
    | file content => exact isSome_file?_iff.mpr ⟨content, same ▸ mem⟩
    | directory => exact absurd (isDirectory_iff.mpr (.inr (.inl (same ▸ mem)))) (by simp [other])
  · exact absurd (isDirectory_iff.mpr (.inr (.inr ⟨_, mem, front, same⟩))) (by simp [other])

theorem exists_mem_inside (above : directory.Above file) (present : (tree.file? file).isSome) :
    ∃ path ∈ tree.inside directory, path <+: file := by
  obtain ⟨name, front⟩ := above.exists_name
  obtain ⟨_, mem⟩ := isSome_file?_iff.mp present
  exact ⟨_, mem_map.mpr ⟨name, mem_listing.mpr ⟨_, mem, front⟩, rfl⟩, front⟩

/-! ### Searching -/

def passed (tree : FileTree) : Finset Path := insert [] (tree.entries.flatMap fun entry => entry.1.inits.tail).toFinset

theorem directoryBound_eq (tree : FileTree) : tree.directoryBound = 1 + (tree.entries.map fun entry => entry.1.length).sum := by
  have adds : ∀ (entries : List (Path × Entry)) (bound : Nat), entries.foldl (fun bound entry => bound + entry.1.length) bound =
      bound + (entries.map fun entry => entry.1.length).sum := by
    intro entries
    induction entries with
    | nil => exact fun _ => rfl
    | cons _ _ ih => exact fun bound => (ih _).trans (by simp [Nat.add_assoc])
  exact adds tree.entries 1

theorem card_passed_le (tree : FileTree) : tree.passed.card ≤ tree.directoryBound := by
  refine (Finset.card_insert_le _ _).trans ?_
  rw [directoryBound_eq, Nat.add_comm]
  refine Nat.add_le_add_left ((toFinset_card_le _).trans_eq ?_) 1
  simp [length_flatMap]

theorem mem_passed : path ∈ tree.passed ↔ path = [] ∨ ∃ entry ∈ tree.entries, path <+: entry.1 := by
  have inits (p : Path) : p.inits = [] :: p.inits.tail := by cases p <;> rfl
  rw [passed, Finset.mem_insert, mem_toFinset, mem_flatMap]
  constructor
  · rintro (root | ⟨entry, mem, later⟩)
    · exact .inl root
    · exact .inr ⟨entry, mem, (mem_inits _ _).mp (mem_of_mem_tail later)⟩
  · rintro (root | ⟨entry, mem, front⟩)
    · exact .inl root
    · rw [← mem_inits, inits, mem_cons] at front
      exact front.imp id fun later => ⟨entry, mem, later⟩

def within (tree : FileTree) (directory : Path) : Finset Path := tree.passed.filter (directory <+: ·)

theorem mem_within_self (is : tree.isDirectory directory) : directory ∈ tree.within directory := by
  refine Finset.mem_filter.mpr ⟨mem_passed.mpr ?_, prefix_rfl⟩
  rcases isDirectory_iff.mp is with root | mem | ⟨entry, mem, above⟩
  · exact .inl root
  · exact .inr ⟨_, mem, prefix_rfl⟩
  · exact .inr ⟨entry, mem, above.1⟩

theorem sum_within_inside_lt (is : tree.isDirectory directory) :
    ((tree.inside directory).map fun path => (tree.within path).card).sum < (tree.within directory).card := by
  rw [← sum_toFinset _ (tree.nodup_inside directory), ← Finset.card_biUnion]
  · refine Finset.card_lt_card ((Finset.ssubset_iff_of_subset ?_).mpr ⟨directory, mem_within_self is, ?_⟩)
    · refine Finset.biUnion_subset.mpr fun path listed other mem => ?_
      obtain ⟨goes, front⟩ := Finset.mem_filter.mp mem
      have above := above_of_mem_inside (mem_toFinset.mp listed)
      exact Finset.mem_filter.mpr ⟨goes, above.1.trans front⟩
    · intro mem
      obtain ⟨_, listed, mem⟩ := Finset.mem_biUnion.mp mem
      have above := above_of_mem_inside (mem_toFinset.mp listed)
      exact (above.further (Finset.mem_filter.mp mem).2).2 rfl
  · refine fun p p_listed q q_listed differ => Finset.disjoint_left.mpr fun path here there => differ ?_
    exact eq_of_mem_inside (mem_toFinset.mp p_listed) (mem_toFinset.mp q_listed)
      (Finset.mem_filter.mp here).2 (Finset.mem_filter.mp there).2

def sourcesBelow (tree : FileTree) (directory : Path) : List Path :=
  (tree.filesBelow directory).filter Path.isSource

theorem mem_sourcesBelow : path ∈ tree.sourcesBelow directory ↔
    (tree.file? path).isSome ∧ directory.Above path ∧ path.isSource := by
  rw [sourcesBelow, filesBelow, mem_filter, mem_filter, mem_files, Path.above_iff_length, and_assoc]
  simp

theorem Sound.nodup_sourcesBelow (sound : tree.Sound) (directory : Path) :
    (tree.sourcesBelow directory).Nodup := (sound.nodup_files.filter _).filter _

theorem Sound.sourcesBelow_perm (sound : tree.Sound) (directory : Path) : (tree.sourcesBelow directory).Perm
      (((tree.inside directory).filter (!tree.isDirectory ·)).filter Path.isSource ++
        ((tree.inside directory).filter tree.isDirectory).flatMap tree.sourcesBelow) := by
  refine (perm_ext_iff_of_nodup (sound.nodup_sourcesBelow _) ?_).mpr fun path => ?_
  · refine nodup_append.mpr ⟨((tree.nodup_inside _).filter _).filter _, nodup_flatMap.mpr ⟨fun _ _ =>
      sound.nodup_sourcesBelow _, ?_⟩, ?_⟩
    · refine ((tree.nodup_inside directory).filter _).pairwise_of_forall_ne fun p p_listed q q_listed differ => ?_
      refine fun path here there => differ (eq_of_mem_inside (mem_of_mem_filter p_listed)
        (mem_of_mem_filter q_listed) (mem_sourcesBelow.mp here).2.1.1 (mem_sourcesBelow.mp there).2.1.1)
    · rintro _ here _ there rfl
      obtain ⟨_, p_listed, below⟩ := mem_flatMap.mp there
      have above := (mem_sourcesBelow.mp below).2.1
      exact above.2 (eq_of_mem_inside (mem_of_mem_filter p_listed)
        (mem_of_mem_filter (mem_of_mem_filter here)) above.1 prefix_rfl)
  · simp only [mem_sourcesBelow, mem_append, mem_flatMap, mem_filter, Bool.not_eq_true']
    constructor
    · rintro ⟨present, above, isSource⟩
      obtain ⟨p, listed, leads⟩ := exists_mem_inside above present
      by_cases same : p = path
      · subst same
        exact .inl ⟨⟨listed, sound.apart present⟩, isSource⟩
      · exact .inr ⟨p, ⟨listed, isDirectory_of_above_file ⟨leads, same⟩ present⟩, present, ⟨leads, same⟩, isSource⟩
    · rintro (⟨⟨listed, other⟩, isSource⟩ | ⟨_, ⟨listed, -⟩, present, above, isSource⟩)
      · exact ⟨isFile_of_mem_inside listed other, above_of_mem_inside listed, isSource⟩
      · exact ⟨present, (above_of_mem_inside listed).further above.1, isSource⟩

end FileTree

open FileTree

theorem collect_perm {tree : FileTree} (sound : tree.Sound) {fuel : Nat} {pending : List Path} (found : List Path)
    (directories : ∀ directory ∈ pending, tree.isDirectory directory)
    (enough : (pending.map fun directory => (tree.within directory).card).sum ≤ fuel) :
    (collect tree fuel pending found).Perm (found ++ pending.flatMap tree.sourcesBelow) := by
  induction fuel generalizing pending found with
  | zero =>
    cases pending with
    | nil => simp [collect]
    | cons directory =>
      have some := Finset.card_pos.mpr ⟨_, mem_within_self (directories directory mem_cons_self)⟩
      simp only [map_cons, sum_cons] at enough
      omega
  | succ _ ih =>
    cases pending with
    | nil => simp [collect]
    | cons directory pending =>
      rw [collect, partition_eq_filter_filter]
      let below := (tree.inside directory).filter tree.isDirectory
      have less : (below.map fun path => (tree.within path).card).sum < (tree.within directory).card :=
        (Sublist.sum_le_sum (filter_sublist.map _) (by simp)).trans_lt
          (sum_within_inside_lt (directories directory mem_cons_self))
      have step := @ih (below.reverse ++ pending)
        (found ++ ((tree.inside directory).filter (!tree.isDirectory ·)).filter Path.isSource) ?_ ?_
      · refine step.trans ?_
        rw [append_assoc, flatMap_append, flatMap_cons, ← append_assoc (filter _ _)]
        refine (Perm.append_right _ ?_).append_left _
        exact (((below.reverse_perm).flatMap_right _).append_left _).trans (sound.sourcesBelow_perm directory).symm
      · intro path mem
        rcases mem_append.mp mem with listed | later
        · exact (mem_filter.mp (mem_reverse.mp listed)).2
        · exact directories path (mem_cons_of_mem _ later)
      · simp only [map_cons, sum_cons] at enough
        rw [map_append, sum_append, map_reverse, sum_reverse]
        omega

end LiveMarkup.Build
