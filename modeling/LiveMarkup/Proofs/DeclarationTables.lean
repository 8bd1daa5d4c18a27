import LiveMarkup.Codegen.Declarations
import Mathlib.Data.List.Induction
import Mathlib.Data.List.Nodup
import Mathlib.Data.Set.Insert

/-!
Tables of generated names over whole sequences of operations. Where no base is another one with a number behind it, no name
is given twice, entries stay where they were put, and a name has the initializer that it was given last. As long as no
initializer is changed, hoisting gives one name to each base and initializer.
-/

namespace LiveMarkup.Codegen.Declarations
open List

section Names

variable {n : Nat}

theorem countOf_bump (base other : String) (table : Declarations) :
    countOf { table with counts := bump base table.counts } other =
      if other = base then countOf table base + 1 else countOf table other := by
  unfold countOf
  dsimp only
  induction table.counts with
  | nil =>
    by_cases same : other = base
    · simp [bump, same]
    · simp [bump, same, Ne.symm same]
  | cons entry _ ih =>
    obtain ⟨b, _⟩ := entry
    rw [bump]
    by_cases here : b = base
    · by_cases same : other = base
      · simp [here, same]
      · simp [here, same, Ne.symm same]
    · by_cases same : other = base
      · simpa [here, same] using ih
      · by_cases found : b = other
        · simp [found, same]
        · simpa [here, found, same] using ih

theorem nameFor_toList (base : String) (n : Nat) :
    (nameFor base n).toList = base.toList ++ if n = 1 then [] else '_' :: n.repr.toList := by
  unfold nameFor
  split
  · simp
  · simp [toString]

def Numbered (base name : String) : Prop :=
  ∃ digits : List Char, digits ≠ [] ∧ (∀ c ∈ digits, c.isDigit = true) ∧ name.toList = base.toList ++ '_' :: digits

def Apart (bases : Set String) : Prop := ∀ base ∈ bases, ∀ other ∈ bases, ¬ Numbered base other

variable {bases : Set String} {base other name : String}

theorem nameFor_one (base : String) : nameFor base 1 = base := rfl

theorem numbered_nameFor (base : String) (later : n ≠ 1) : Numbered base (nameFor base n) := by
  refine ⟨n.repr.toList, ?_, fun c mem => ?_, by rw [nameFor_toList, if_neg later]⟩
  · simp
  · exact Nat.isDigit_of_mem_toDigits (show 0 < 10 by decide) (show 10 ≤ 10 by decide) (by simpa [Nat.repr] using mem)

theorem Numbered.base_eq (one : Numbered base name) (two : Numbered other name) : base = other := by
  obtain ⟨digits, -, all, same⟩ := one
  obtain ⟨_, -, all', same'⟩ := two
  have absent : ∀ {digits : List Char}, (∀ c ∈ digits, c.isDigit = true) → '_' ∉ digits := fun all mem =>
    absurd (all '_' mem) (by decide)
  rw [same] at same'
  rcases append_eq_append_iff.mp same' with ⟨between, longer, rest⟩ | ⟨between, longer, rest⟩
  · cases between with
    | nil => exact String.toList_inj.mp (by simpa using longer.symm)
    | cons =>
      obtain ⟨-, rfl⟩ := cons.inj rest
      exact absurd (by simp) (absent all)
  · cases between with
    | nil => exact String.toList_inj.mp (by simpa using longer)
    | cons =>
      obtain ⟨-, rfl⟩ := cons.inj rest
      exact absurd (by simp) (absent all')

theorem Apart.base_eq (apart : Apart bases) (one : base ∈ bases) (two : other ∈ bases)
    (named : name = base ∨ Numbered base name) (named' : name = other ∨ Numbered other name) : base = other := by
  rcases named with rfl | numbered
  · rcases named' with rfl | numbered'
    · rfl
    · exact absurd numbered' (apart other two name one)
  · rcases named' with rfl | numbered'
    · exact absurd numbered (apart base one name two)
    · exact numbered.base_eq numbered'

theorem named_nameFor (base : String) (n : Nat) : nameFor base n = base ∨ Numbered base (nameFor base n) := by
  by_cases first : n = 1
  · exact .inl (by rw [first, nameFor_one])
  · exact .inr (numbered_nameFor base first)

theorem nameFor_inj (apart : Apart bases) (one : base ∈ bases) (two : other ∈ bases) {m : Nat}
    (same : nameFor base m = nameFor other n) : base = other ∧ m = n := by
  obtain rfl : base = other := apart.base_eq one two (named_nameFor base m) (same ▸ named_nameFor other n)
  refine ⟨rfl, ?_⟩
  have chars := congrArg String.toList same
  rw [nameFor_toList, nameFor_toList] at chars
  have tails := append_cancel_left chars
  by_cases first : m = 1 <;> by_cases second : n = 1
  · rw [first, second]
  · simp [first, second] at tails
  · simp [first, second] at tails
  · rw [if_neg first, if_neg second] at tails
    have digits : Nat.toDigits 10 m = Nat.toDigits 10 n := by simpa [Nat.repr] using (cons.inj tails).2
    rw [← @Nat.ofDigitChars_ten_toDigits m, digits, Nat.ofDigitChars_ten_toDigits]

theorem isInstance_iff : isInstance name base = true ↔ name = base ∨ Numbered base name := by
  rw [isInstance, Bool.and_eq_true, isPrefixOf_iff_prefix, ← String.length_toList]
  constructor
  · rintro ⟨⟨_, same⟩, ends⟩
    rw [← same, drop_left] at ends
    split at ends
    · exact .inl (String.toList_inj.mp (by simpa using same.symm))
    · rename_i digits
      simp only [Bool.and_eq_true, Bool.not_eq_true', isEmpty_eq_false_iff, all_eq_true] at ends
      exact .inr ⟨digits, ends.1, ends.2, same.symm⟩
    · cases ends
  · rintro (rfl | ⟨_, solid, all, same⟩)
    · simp
    · rw [same, drop_left]
      exact ⟨prefix_append .., by simpa [solid] using all⟩

theorem isInstance_nameFor (apart : Apart bases) (one : base ∈ bases) (two : other ∈ bases) (n : Nat) :
    isInstance (nameFor base n) other = true ↔ base = other := by
  rw [isInstance_iff]
  constructor
  · exact apart.base_eq one two (named_nameFor base n)
  · rintro rfl
    exact named_nameFor base n

end Names

section Operations

variable {entries : List (String × Option String)} {α : Type}

def names (table : Declarations) : List String := table.entries.map Prod.fst

inductive Operation where
  | declare (base init : String)
  | reserve (base : String)
  | update (name init : String)
  | hoist (base init : String)
  deriving Repr, DecidableEq

namespace Operation

def base? : Operation → Option String
  | .declare base _ | .reserve base | .hoist base _ => some base
  | .update _ _ => none

def perform (table : Declarations) : Operation → Declarations
  | .declare base init => (table.declare base init).2
  | .reserve base => (table.reserve base).2
  | .update name init => (table.update name init).2
  | .hoist base init => (table.hoist base init).2

def answer? (table : Declarations) : Operation → Option String
  | .declare base init => some (table.declare base init).1
  | .reserve base => some (table.reserve base).1
  | .update _ _ => none
  | .hoist base init => some (table.hoist base init).1

def given? (table : Declarations) : Operation → Option (String × String)
  | .declare base init => some ((table.declare base init).1, init)
  | .reserve _ => none
  | .update name init => if (table.update name init).1 then some (name, init) else none
  | .hoist base init => some ((table.hoist base init).1, init)

end Operation

def after (table : Declarations) (operations : List Operation) : Declarations := operations.foldl Operation.perform table

/-- What operations say one after another, each of the table that it finds. -/
def said {α : Type} (say : Declarations → Operation → Option α) : Declarations → List Operation → List α
  | _, [] => []
  | table, operation :: rest => (say table operation).toList ++ said say (operation.perform table) rest

variable {bases : Set String} {table : Declarations} {base name init : String} {operation : Operation}

theorem after_append (table : Declarations) (operations more : List Operation) :
    after table (operations ++ more) = after (after table operations) more := foldl_append

theorem said_append (say : Declarations → Operation → Option α) (table : Declarations) (operations more : List Operation) :
    said say table (operations ++ more) = said say table operations ++ said say (after table operations) more := by
  induction operations generalizing table with
  | nil => rfl
  | cons _ _ ih => simp [said, after, ih]

theorem said_snoc (say : Declarations → Operation → Option α) (table : Declarations) (operations : List Operation)
    (operation : Operation) :
    said say table (operations ++ [operation]) =
      said say table operations ++ (say (after table operations) operation).toList := by
  simp [said_append, said]

structure Sound (bases : Set String) (table : Declarations) : Prop where
  named : ∀ name ∈ table.names, ∃ base ∈ bases, ∃ n, n ≤ table.countOf base ∧ name = nameFor base n
  distinct : table.names.Nodup

theorem sound_empty (bases : Set String) : Sound bases {} := ⟨nofun, nodup_nil⟩

theorem names_add (table : Declarations) (base : String) (init : Option String) :
    (table.add base init).2.names = table.names ++ [(table.add base init).1] := by
  simp [names, add]

theorem Sound.fresh (sound : Sound bases table) (apart : Apart bases) (known : base ∈ bases) (init : Option String) :
    (table.add base init).1 ∉ table.names := by
  intro mem
  obtain ⟨_, known', _, _, same⟩ := sound.named _ mem
  obtain ⟨rfl, rfl⟩ := nameFor_inj apart known known' same
  omega

theorem Sound.add (sound : Sound bases table) (apart : Apart bases) (known : base ∈ bases) (init : Option String) :
    Sound bases (table.add base init).2 where
  named name mem := by
    have counts : ∀ other, (table.add base init).2.countOf other =
        if other = base then table.countOf base + 1 else table.countOf other := fun other => countOf_bump base other table
    rw [names_add, mem_append, mem_singleton] at mem
    rcases mem with old | rfl
    · obtain ⟨other, known', n, low, same⟩ := sound.named name old
      refine ⟨other, known', n, ?_, same⟩
      rw [counts]
      split
      · rename_i again
        subst again
        omega
      · exact low
    · exact ⟨base, known, table.countOf base + 1, by rw [counts, if_pos rfl], rfl⟩
  distinct := by
    rw [names_add]
    exact nodup_append.mpr ⟨sound.distinct, nodup_singleton _,
      fun one old two new same => sound.fresh apart known init (mem_singleton.mp new ▸ same ▸ old)⟩

def withInit (name init : String) (entry : String × Option String) : String × Option String :=
  if entry.1 = name then (name, some init) else entry

theorem fst_withInit (name init : String) (entry : String × Option String) : (withInit name init entry).1 = entry.1 := by
  unfold withInit
  split <;> simp_all

theorem map_withInit_of_not_mem (absent : name ∉ entries.map Prod.fst) (init : String) :
    entries.map (withInit name init) = entries := by
  rw [map_congr_left (g := id), map_id]
  intro entry mem
  exact if_neg fun same => absent (mem_map.mpr ⟨entry, mem, same⟩)

theorem setFirst_eq (distinct : (entries.map Prod.fst).Nodup) (name init : String) :
    setFirst name init entries = entries.map (withInit name init) := by
  induction entries with
  | nil => rfl
  | cons entry _ ih =>
    obtain ⟨n, _⟩ := entry
    obtain ⟨absent, distinct⟩ := nodup_cons.mp distinct
    by_cases here : n = name
    · subst here
      rw [setFirst, if_pos rfl, map_cons, map_withInit_of_not_mem absent, withInit, if_pos rfl]
    · rw [setFirst, if_neg here, map_cons, ih distinct, withInit, if_neg here]

theorem update_eq (distinct : table.names.Nodup) (name init : String) :
    (table.update name init).2 = { table with entries := table.entries.map (withInit name init) } := by
  rw [update, setFirst_eq distinct]

theorem update_iff (table : Declarations) (name init : String) : (table.update name init).1 = true ↔ name ∈ table.names := by
  simp [update, names]

theorem names_update (distinct : table.names.Nodup) (name init : String) : (table.update name init).2.names = table.names := by
  rw [update_eq distinct, names, map_map]
  exact map_congr_left fun entry _ => fst_withInit name init entry

theorem Sound.update (sound : Sound bases table) (name init : String) : Sound bases (table.update name init).2 where
  named other mem := sound.named other (names_update sound.distinct name init ▸ mem)
  distinct := by rw [names_update sound.distinct]; exact sound.distinct

theorem hoist_cases (table : Declarations) (base init : String) :
    ((table.hoist base init).2 = table ∧ ((table.hoist base init).1, some init) ∈ table.entries ∧
      isInstance (table.hoist base init).1 base = true) ∨
    (table.hoist base init = table.add base (some init) ∧
      ∀ entry ∈ table.entries, entry.2 = some init → isInstance entry.1 base = false) := by
  unfold hoist
  split
  · rename_i name found same
    have holds := find?_some same
    simp only [Bool.and_eq_true, beq_iff_eq] at holds
    obtain ⟨rfl, given⟩ := holds
    exact .inl ⟨rfl, mem_of_find?_eq_some same, given⟩
  · rename_i none
    refine .inr ⟨rfl, fun entry mem same => ?_⟩
    have misses := find?_eq_none.mp none entry mem
    simpa [same] using misses

theorem Sound.hoist (sound : Sound bases table) (apart : Apart bases) (known : base ∈ bases) (init : String) :
    Sound bases (table.hoist base init).2 := by
  rcases hoist_cases table base init with ⟨same, -, -⟩ | ⟨made, -⟩
  · rw [same]
    exact sound
  · rw [made]
    exact sound.add apart known _

theorem Sound.perform (sound : Sound bases table) (apart : Apart bases)
    (listed : ∀ base ∈ operation.base?, base ∈ bases) : Sound bases (operation.perform table) := by
  cases operation with
  | declare base | reserve base => exact sound.add apart (listed base rfl) _
  | update name init => exact sound.update name init
  | hoist base init => exact sound.hoist apart (listed base rfl) init

theorem Sound.after (sound : Sound bases table) (apart : Apart bases) {operations : List Operation}
    (listed : ∀ operation ∈ operations, ∀ base ∈ operation.base?, base ∈ bases) : Sound bases (after table operations) := by
  induction operations generalizing table with
  | nil => exact sound
  | cons operation _ ih =>
    exact ih (sound.perform apart (listed operation mem_cons_self)) fun later mem =>
      listed later (mem_cons_of_mem _ mem)

theorem names_perform (distinct : table.names.Nodup) (operation : Operation)
    (fresh : ∀ base ∈ operation.base?, ∀ init, (table.add base init).1 ∉ table.names) :
    (operation.perform table).names = table.names ++ (operation.answer? table).toList.filter (· ∉ table.names) := by
  have added : ∀ base ∈ operation.base?, ∀ init, (table.add base init).2.names =
      table.names ++ [(table.add base init).1].filter (· ∉ table.names) := by
    intro base asked init
    rw [names_add, filter_eq_self.mpr (by simpa using fresh base asked init)]
  cases operation with
  | declare base => exact added base rfl _
  | reserve base => exact added base rfl _
  | update name init => simpa [Operation.perform, Operation.answer?] using names_update distinct name init
  | hoist base init =>
    rcases hoist_cases table base init with ⟨same, mem, -⟩ | ⟨made, -⟩
    · have there : (table.hoist base init).1 ∈ table.names := mem_map.mpr ⟨_, mem, rfl⟩
      simp [Operation.perform, Operation.answer?, same, there]
    · rw [Operation.perform, Operation.answer?, made]
      exact added base rfl _

theorem get?_of_mem (distinct : table.names.Nodup) {entry : String × Option String} (mem : entry ∈ table.entries) :
    table.get? entry.1 = entry.2 := by
  obtain ⟨entries, _⟩ := table
  induction entries with
  | nil => cases mem
  | cons first _ ih =>
    obtain ⟨absent, distinct⟩ := nodup_cons.mp distinct
    rcases mem_cons.mp mem with rfl | mem
    · simp [get?]
    · have apart : first.1 ≠ entry.1 := fun same => absent (same ▸ mem_map.mpr ⟨entry, mem, rfl⟩)
      simpa [get?, find?_cons, apart] using ih distinct mem

theorem get?_of_not_mem (absent : name ∉ table.names) : table.get? name = none := by
  rw [get?, find?_eq_none.mpr, Option.bind_none]
  intro entry mem same
  exact absent (mem_map.mpr ⟨entry, mem, by simpa using same⟩)

theorem get?_add {init : Option String} (fresh : (table.add base init).1 ∉ table.names) (name : String) :
    (table.add base init).2.get? name = if name = (table.add base init).1 then init else table.get? name := by
  have appended : (table.add base init).2.get? name =
      ((table.entries.find? (·.1 == name)).or ([((table.add base init).1, init)].find? (·.1 == name))).bind Prod.snd := by
    rw [← find?_append]
    rfl
  rw [appended]
  split
  · rename_i same
    subst same
    have missing : table.entries.find? (·.1 == (table.add base init).1) = none := by
      refine find?_eq_none.mpr fun entry mem same => fresh (mem_map.mpr ⟨entry, mem, by simpa using same⟩)
    simp [missing]
  · rename_i other
    simp [get?, Ne.symm other]

theorem get?_update (distinct : table.names.Nodup) (name init other : String) :
    (table.update name init).2.get? other = if other = name ∧ name ∈ table.names then some init else table.get? other := by
  have kept : ((·.1 == other) ∘ withInit name init : String × Option String → Bool) = (·.1 == other) := by
    funext entry
    simp [fst_withInit]
  rw [update_eq distinct, get?, find?_map, kept]
  by_cases there : other ∈ table.names
  · obtain ⟨entry, mem, rfl⟩ := mem_map.mp there
    cases found : table.entries.find? (·.1 == entry.1) with
    | none =>
      have misses := find?_eq_none.mp found entry mem
      simp at misses
    | some first =>
      have same : first.1 = entry.1 := by simpa using find?_some found
      by_cases here : entry.1 = name
      · have known : name ∈ table.names := here ▸ there
        simp [withInit, same, here, known]
      · simp [withInit, same, here, get?, found]
  · rw [get?_of_not_mem there, find?_eq_none.mpr fun entry mem same =>
      there (mem_map.mpr ⟨entry, mem, by simpa using same⟩)]
    have apart : ¬(other = name ∧ name ∈ table.names) := fun both => there (both.1 ▸ both.2)
    simp [apart]

theorem get?_hoist (distinct : table.names.Nodup) (fresh : ∀ init, (table.add base init).1 ∉ table.names)
    (init name : String) :
    (table.hoist base init).2.get? name = if name = (table.hoist base init).1 then some init else table.get? name := by
  rcases hoist_cases table base init with ⟨same, mem, -⟩ | ⟨made, -⟩
  · rw [same]
    split
    · rename_i here
      exact here ▸ get?_of_mem distinct mem
    · rfl
  · rw [made]
    exact get?_add (fresh _) name

theorem get?_perform (distinct : table.names.Nodup) (operation : Operation)
    (fresh : ∀ base ∈ operation.base?, ∀ init, (table.add base init).1 ∉ table.names) (name : String) :
    (operation.perform table).get? name = (lookup name (operation.given? table).toList).or (table.get? name) := by
  cases operation with
  | declare base init =>
    rw [Operation.perform, declare, get?_add (fresh base rfl _)]
    by_cases same : name = (table.add base (some init)).1 <;> simp [Operation.given?, declare, same]
  | reserve base =>
    rw [Operation.perform, reserve, get?_add (fresh base rfl _)]
    by_cases same : name = (table.add base none).1
    · simp [Operation.given?, same, get?_of_not_mem (fresh base rfl none)]
    · simp [Operation.given?, same]
  | update other =>
    rw [Operation.perform, get?_update distinct]
    by_cases known : other ∈ table.names
    · by_cases same : name = other <;> simp [Operation.given?, update_iff, known, same]
    · simp [Operation.given?, update_iff, known]
  | hoist base init =>
    rw [Operation.perform, get?_hoist distinct (fresh base rfl)]
    by_cases same : name = (table.hoist base init).1 <;> simp [Operation.given?, same]

theorem eraseDups_snoc (names : List String) (added : List String) (one : added.length ≤ 1) :
    (names ++ added).eraseDups = names.eraseDups ++ added.filter (· ∉ names.eraseDups) := by
  rw [eraseDups_append]
  match added, one with
  | [], _ => simp
  | [name], _ => by_cases there : name ∈ names <;> simp [removeAll, there, eraseDups_cons]

section Runs

variable (apart : Apart bases) {operations : List Operation}
  (listed : ∀ operation ∈ operations, ∀ base ∈ operation.base?, base ∈ bases)

include apart listed

omit listed in
theorem fresh_of_concat (listed : ∀ other ∈ operations ++ [operation], ∀ base ∈ other.base?, base ∈ bases) :
    (∀ other ∈ operations, ∀ base ∈ other.base?, base ∈ bases) ∧ Sound bases (after {} operations) ∧
      ∀ base ∈ operation.base?, ∀ init, ((after {} operations).add base init).1 ∉ (after {} operations).names := by
  have before : ∀ other ∈ operations, ∀ base ∈ other.base?, base ∈ bases := fun earlier mem =>
    listed earlier (mem_append_left _ mem)
  have sound := (sound_empty bases).after apart before
  exact ⟨before, sound, fun base asked => sound.fresh apart (listed operation (by simp) base asked)⟩

theorem names_after : (after {} operations).names = (said Operation.answer? {} operations).eraseDups := by
  induction operations using reverseRecOn with
  | nil => rfl
  | append_singleton _ operation ih =>
    obtain ⟨before, sound, fresh⟩ := fresh_of_concat apart listed
    rw [after_append, said_snoc, eraseDups_snoc _ _ (by cases operation.answer? _ <;> simp), ← ih before]
    exact names_perform sound.distinct operation fresh

theorem get?_after (name : String) :
    (after {} operations).get? name = lookup name (said Operation.given? {} operations).reverse := by
  induction operations using reverseRecOn with
  | nil => rfl
  | append_singleton operations operation ih =>
    obtain ⟨before, sound, fresh⟩ := fresh_of_concat apart listed
    have step := get?_perform sound.distinct operation fresh name
    rw [after_append, said_snoc, reverse_append, lookup_append, ← ih before]
    refine step.trans ?_
    cases operation.given? (after {} operations) <;> rfl

end Runs

section Hoisting

variable {operations : List Operation}

def Unchanged (operations : List Operation) : Prop := ∀ name init, Operation.update name init ∉ operations

theorem entries_perform (table : Declarations) (kept : ∀ name init, operation ≠ .update name init) :
    table.entries <+: (operation.perform table).entries := by
  cases operation with
  | declare => exact prefix_append ..
  | reserve => exact prefix_append ..
  | update name init => exact absurd rfl (kept name init)
  | hoist base init =>
    rcases hoist_cases table base init with ⟨same, -, -⟩ | ⟨made, -⟩
    · have kept := congrArg Declarations.entries same
      exact kept ▸ prefix_rfl
    · rw [Operation.perform, made]
      exact prefix_append ..

theorem entries_after (table : Declarations) (unchanged : Unchanged operations) :
    table.entries <+: (after table operations).entries := by
  induction operations generalizing table with
  | nil => exact prefix_rfl
  | cons _ _ ih =>
    have first := entries_perform table fun name init same => unchanged name init (same ▸ mem_cons_self)
    exact first.trans (ih _ fun name init mem => unchanged name init (mem_cons_of_mem _ mem))

variable {other value : String}

theorem find?_hoist (table : Declarations) (base init : String) :
    (table.hoist base init).2.entries.find? (fun (name, i) => i == some init && isInstance name base) =
      some ((table.hoist base init).1, some init) := by
  unfold hoist
  split
  · rename_i name found same
    have holds := find?_some same
    simp only [Bool.and_eq_true, beq_iff_eq] at holds
    rw [same, holds.1]
  · rename_i none
    have own : isInstance (nameFor base (table.countOf base + 1)) base = true := isInstance_iff.mpr (named_nameFor ..)
    rw [declare, add, find?_append, none, Option.none_or, find?_singleton, if_pos (by simp [own])]

theorem hoist_again {later : Declarations} (kept : (table.hoist base init).2.entries <+: later.entries) :
    later.hoist base init = ((table.hoist base init).1, later) := by
  obtain ⟨_, longer⟩ := kept
  rw [hoist, ← longer, find?_append, find?_hoist, Option.some_or]

theorem mem_hoist (table : Declarations) (base init : String) :
    ((table.hoist base init).1, some init) ∈ (table.hoist base init).2.entries :=
  mem_of_find?_eq_some (find?_hoist table base init)

theorem named_hoist (table : Declarations) (base init : String) :
    (table.hoist base init).1 = base ∨ Numbered base (table.hoist base init).1 := by
  have holds := find?_some (find?_hoist table base init)
  rw [Bool.and_eq_true] at holds
  exact isInstance_iff.mp holds.2

theorem hoist_same_iff (sound : Sound bases table) (apart : Apart bases) (one : base ∈ bases) (two : other ∈ bases)
    {between : List Operation} (unchanged : Unchanged between)
    (listed : ∀ operation ∈ between, ∀ base ∈ operation.base?, base ∈ bases) :
    (table.hoist base init).1 = ((after (table.hoist base init).2 between).hoist other value).1 ↔
      base = other ∧ init = value := by
  have kept := entries_after (table.hoist base init).2 unchanged
  have later : Sound bases (after (table.hoist base init).2 between) := (sound.hoist apart one init).after apart listed
  constructor
  · intro same
    refine ⟨apart.base_eq one two (named_hoist table base init) (same ▸ named_hoist ..), ?_⟩
    have grown := entries_perform (after (table.hoist base init).2 between)
      (show ∀ name init, Operation.hoist other value ≠ .update name init from nofun)
    have first := get?_of_mem (later.hoist apart two value).distinct
      (grown.subset (kept.subset (mem_hoist table base init)))
    have second := get?_of_mem (later.hoist apart two value).distinct (mem_hoist _ other value)
    dsimp only at first second
    rw [← same, first] at second
    exact Option.some.inj second
  · rintro ⟨rfl, rfl⟩
    rw [hoist_again kept]

def OncePerInit (base : String) (table : Declarations) : Prop :=
  ∀ one ∈ table.entries, ∀ two ∈ table.entries, ∀ init, one.2 = some init → two.2 = some init →
    isInstance one.1 base = true → isInstance two.1 base = true → one = two

theorem OncePerInit.add (once : OncePerInit base table) {init : Option String}
    (new : isInstance (table.add other init).1 base = true → ∀ entry ∈ table.entries, entry.2.isSome → entry.2 = init →
      isInstance entry.1 base = false) : OncePerInit base (table.add other init).2 := by
  have apart : ∀ entry ∈ table.entries, ∀ i, entry.2 = some i → init = some i → isInstance entry.1 base = true →
      isInstance (table.add other init).1 base = true → False := by
    intro entry old i held held' mine yours
    have strange := new yours entry old (by simp [held]) (held.trans held'.symm)
    rw [mine] at strange
    cases strange
  intro one mem two inside' i held held' mine yours
  rcases mem_append.mp mem with old | added <;> rcases mem_append.mp inside' with old' | added'
  · exact once one old two old' i held held' mine yours
  · obtain rfl := mem_singleton.mp added'
    exact (apart one old i held held' mine yours).elim
  · obtain rfl := mem_singleton.mp added
    exact (apart two old' i held' held yours mine).elim
  · rw [mem_singleton.mp added, mem_singleton.mp added']

theorem OncePerInit.perform (once : OncePerInit base table) (apart : Apart bases) (known : base ∈ bases)
    (listed : ∀ base ∈ operation.base?, base ∈ bases) (kept : ∀ name init, operation ≠ .update name init)
    (hoisted : operation.base? = some base → ∃ init, operation = .hoist base init) :
    OncePerInit base (operation.perform table) := by
  have elsewhere : ∀ {other : String} (init : Option String), operation.base? = some other → other ≠ base →
      OncePerInit base (table.add other init).2 := by
    intro other init asked different
    refine once.add fun mine => ?_
    exact absurd ((isInstance_nameFor apart (listed other asked) known _).mp mine) different
  cases operation with
  | declare _ init | reserve =>
    refine elsewhere _ rfl fun same => ?_
    obtain ⟨_, impossible⟩ := hoisted (congrArg some same)
    cases impossible
  | update name init => exact absurd rfl (kept name init)
  | hoist other init =>
    rcases hoist_cases table other init with ⟨same, -, -⟩ | ⟨made, missing⟩
    · rw [Operation.perform, same]
      exact once
    · rw [Operation.perform, made]
      by_cases same : other = base
      · subst same
        exact once.add fun _ entry mem _ held => missing entry mem held
      · exact elsewhere _ rfl same

theorem OncePerInit.after (once : OncePerInit base table) (apart : Apart bases) (known : base ∈ bases)
    (listed : ∀ operation ∈ operations, ∀ base ∈ operation.base?, base ∈ bases) (unchanged : Unchanged operations)
    (hoisted : ∀ operation ∈ operations, operation.base? = some base → ∃ init, operation = .hoist base init) :
    OncePerInit base (after table operations) := by
  induction operations generalizing table with
  | nil => exact once
  | cons operation _ ih =>
    have first := once.perform apart known (listed operation mem_cons_self)
      (fun name init same => unchanged name init (same ▸ mem_cons_self)) (hoisted operation mem_cons_self)
    exact ih first (fun later mem => listed later (mem_cons_of_mem _ mem))
      (fun name init mem => unchanged name init (mem_cons_of_mem _ mem))
      fun later mem => hoisted later (mem_cons_of_mem _ mem)

end Hoisting

/-- For operations over bases none of which is another one with a number behind it: no name is given twice, entries
stand in the order in which their names were answered first and are never taken out, an update changes the initializer
of the one entry that it names and fails if there is none, and a name has the initializer that it was given last.
Without updates two hoists answer the same name exactly if bases and initializers are equal, and what is only hoisted
stands in the table once. -/
theorem table_keeps_what_operations_say {bases : Set String} (apart : Apart bases) {operations : List Operation}
    (listed : ∀ operation ∈ operations, ∀ base ∈ operation.base?, base ∈ bases) :
    let table := after {} operations
    table.names.Nodup ∧
    table.names = (said Operation.answer? {} operations).eraseDups ∧
    (∀ more, (∀ operation ∈ more, ∀ base ∈ operation.base?, base ∈ bases) →
      table.names <+: (after {} (operations ++ more)).names) ∧
    (∀ name init, ((table.update name init).1 = true ↔ name ∈ table.names) ∧ (table.update name init).2 =
      { table with entries := table.entries.map fun entry => if entry.1 = name then (name, some init) else entry }) ∧
    (∀ name, table.get? name = lookup name (said Operation.given? {} operations).reverse) ∧
    (Unchanged operations →
      (∀ before between behind base init other value,
        operations = before ++ .hoist base init :: between ++ .hoist other value :: behind →
        (((after {} before).hoist base init).1 =
            ((after {} (before ++ .hoist base init :: between)).hoist other value).1 ↔ base = other ∧ init = value)) ∧
      ∀ base init, .hoist base init ∈ operations →
        (∀ operation ∈ operations, operation.base? = some base → ∃ init, operation = .hoist base init) →
        ∃! entry, entry ∈ table.entries ∧ entry.2 = some init ∧ (entry.1 = base ∨ Numbered base entry.1)) := by
  have sound : Sound bases (after {} operations) := (sound_empty bases).after apart listed
  refine ⟨sound.distinct, names_after apart listed, fun more listed' => ?_, fun name init => ⟨update_iff .., ?_⟩,
    get?_after apart listed, fun unchanged => ⟨?_, ?_⟩⟩
  · rw [names_after apart listed, names_after apart fun operation inside =>
      (mem_append.mp inside).elim (listed operation) (listed' operation), said_append, eraseDups_append]
    exact prefix_append ..
  · exact update_eq sound.distinct name init
  · rintro before between behind base init other value rfl
    have sound : Sound bases (after {} before) :=
      (sound_empty bases).after apart fun operation inside => listed operation (by simp [inside])
    rw [after_append]
    exact hoist_same_iff sound apart (listed (.hoist base init) (by simp) base rfl) (listed (.hoist other value) (by simp) other rfl)
      (fun name init inside => unchanged name init (by simp [inside])) fun operation inside => listed operation (by simp [inside])
  · intro base init hoisted only
    obtain ⟨before, behind, rfl⟩ := append_of_mem hoisted
    have known : base ∈ bases := listed _ hoisted base rfl
    have none : OncePerInit base {} := nofun
    have once := none.after apart known listed unchanged only
    have kept : ((after {} before).hoist base init).2.entries <+: (after {} (before ++ .hoist base init :: behind)).entries := by
      rw [after_append]
      exact entries_after _ fun name init inside => unchanged name init (by simp [inside])
    refine ⟨(((after {} before).hoist base init).1, some init), ⟨kept.subset (mem_hoist ..), rfl, named_hoist ..⟩, ?_⟩
    rintro entry ⟨inside, held, named⟩
    exact once entry inside _ (kept.subset (mem_hoist ..)) init held rfl (isInstance_iff.mpr named)
      (isInstance_iff.mpr (named_hoist ..))

def twins : List Operation :=
  [.reserve "__el", .hoist "__TMPL" "a", .declare "__el" "w", .hoist "__TMPL" "b", .hoist "__TMPL" "a"]

theorem apart_twins : Apart {"__el", "__TMPL"} := by
  rintro _ (rfl | rfl) _ (rfl | rfl) ⟨digits, -, -, same⟩ <;> simp at same

theorem over_twins : ∀ operation ∈ twins, ∀ base ∈ operation.base?, base ∈ ({"__el", "__TMPL"} : Set String) := by
  simp [twins, Operation.base?]

theorem table_keeps_what_operations_say_twins :
    (Apart {"__el", "__TMPL"} ∧ ∀ operation ∈ twins, ∀ base ∈ operation.base?, base ∈ ({"__el", "__TMPL"} : Set String)) ∧
      (after {} twins).names = ["__el", "__TMPL", "__el_2", "__TMPL_2"] ∧
      (after {} twins).get? "__TMPL_2" = some "b" ∧ ((after {} twins).update "__el" "c").1 = true ∧
      ∃! entry, entry ∈ (after {} twins).entries ∧ entry.2 = some "a" ∧ (entry.1 = "__TMPL" ∨ Numbered "__TMPL" entry.1) := by
  obtain ⟨-, order, -, updates, gives, hoists⟩ := table_keeps_what_operations_say apart_twins over_twins
  have named : (after {} twins).names = ["__el", "__TMPL", "__el_2", "__TMPL_2"] := order.trans (by decide +kernel)
  refine ⟨⟨apart_twins, over_twins⟩, named, (gives _).trans (by decide +kernel), ?_, ?_⟩
  · exact (updates "__el" "c").1.mpr (named ▸ mem_cons_self)
  · exact (hoists (by simp [Unchanged, twins])).2 "__TMPL" "a" (by simp [twins]) (by simp [twins, Operation.base?])

end Operations

end LiveMarkup.Codegen.Declarations
