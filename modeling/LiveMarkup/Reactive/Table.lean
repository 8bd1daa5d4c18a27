/-!
Tables: finite maps from numbers.
-/

namespace LiveMarkup.Reactive

structure Table (α : Type) where
  entries : List (Nat × α) := []
  deriving Repr

namespace Table

variable {α : Type}

def find? (key : Nat) : List (Nat × α) → Option α
  | [] => none
  | (k, value) :: rest => if k = key then some value else find? key rest

def get? (table : Table α) (key : Nat) : Option α := find? key table.entries

def contains (table : Table α) (key : Nat) : Bool := (table.get? key).isSome

def erase (table : Table α) (key : Nat) : Table α := ⟨table.entries.filter (·.1 != key)⟩

def insert (table : Table α) (key : Nat) (value : α) : Table α := ⟨(key, value) :: (table.erase key).entries⟩

def modify (table : Table α) (key : Nat) (f : α → α) : Table α :=
  match table.get? key with
  | some value => table.insert key (f value)
  | none => table

def eraseAll (table : Table α) (keys : List Nat) : Table α := keys.foldl erase table

theorem find?_filter_ne (entries : List (Nat × α)) (key other : Nat) :
    find? other (entries.filter (·.1 != key)) = if other = key then none else find? other entries := by
  induction entries with
  | nil => simp [find?]
  | cons entry rest ih =>
    obtain ⟨k, value⟩ := entry
    by_cases same : k = key <;> by_cases found : k = other <;> by_cases erased : other = key <;>
      simp_all [find?]

@[simp]
theorem get?_erase (table : Table α) (key other : Nat) :
    (table.erase key).get? other = if other = key then none else table.get? other :=
  find?_filter_ne table.entries key other

@[simp]
theorem get?_insert (table : Table α) (key other : Nat) (value : α) :
    (table.insert key value).get? other = if other = key then some value else table.get? other := by
  by_cases same : other = key
  · simp [insert, get?, find?, same]
  · have apart : key ≠ other := fun h => same h.symm
    simp [insert, get?, erase, find?, same, apart, find?_filter_ne]

@[simp]
theorem get?_modify (table : Table α) (key other : Nat) (f : α → α) :
    (table.modify key f).get? other = if other = key then (table.get? other).map f else table.get? other := by
  unfold modify
  split <;> rename_i found <;> by_cases same : other = key <;> simp_all

end Table
end LiveMarkup.Reactive
