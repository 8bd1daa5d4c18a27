/-!
Sets of characters given by their boundaries: the code points at which membership changes, in ascending
order, starting outside the set.
-/

namespace LiveMarkup.Text

/-- The boundaries of a set given by the distances from each one to the next, the first one from zero. -/
def boundariesOf (distances : Array Nat) : Array Nat :=
  (distances.foldl (fun (reached, boundaries) distance => (reached + distance, boundaries.push (reached + distance)))
    (0, #[])).2

/-- The number of boundaries from `low` on, below `high`, that are at most `n`, counted from zero. -/
def boundariesUpTo (boundaries : Array Nat) (n : Nat) : (low high : Nat) → Nat
  | low, high =>
    if low < high then
      let middle := (low + high) / 2
      if boundaries.getD middle 0 ≤ n then boundariesUpTo boundaries n (middle + 1) high
      else boundariesUpTo boundaries n low middle
    else low
termination_by low high => high - low

/-- A code point lies in the set when it is past an odd number of boundaries. -/
def within (boundaries : Array Nat) (n : Nat) : Bool :=
  boundariesUpTo boundaries n 0 boundaries.size % 2 == 1

end LiveMarkup.Text
