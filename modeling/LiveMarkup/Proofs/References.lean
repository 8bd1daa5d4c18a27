import LiveMarkup.Markup.Entity
import LiveMarkup.Text.Blank

/-!
Escaped text is read back as it was, whichever of the special characters are escaped, as long as the ampersand is
among them.
-/

namespace LiveMarkup.Markup.Entity
open Text List
variable {marks : List Char} {c : Char} {cs : List Char} {mark : Char}

/-- The characters that a place in markup escapes: special ones, and the ampersand among them. -/
structure Escaping (marks : List Char) : Prop where
  special : ∀ c ∈ marks, c ∈ allMarks
  ampersand : '&' ∈ marks

theorem escaping_allMarks : Escaping allMarks := ⟨fun _ => id, by decide⟩

theorem escaping_contentMarks : Escaping contentMarks := ⟨by simp [contentMarks, allMarks], by decide⟩

theorem escaping_attributeMarks : Escaping attributeMarks := ⟨by simp [attributeMarks, allMarks], by decide⟩

theorem escape_cons (marks : List Char) (c : Char) (cs : List Char) :
    escape marks (c :: cs) = (if marks.contains c then reference c else [c]) ++ escape marks cs := rfl

theorem escape_of_plain (plain : ∀ c ∈ cs, c ∉ marks) : escape marks cs = cs := by
  induction cs with
  | nil => rfl
  | cons c _ ih =>
    have here : marks.contains c = false := by simpa using plain c (by simp)
    rw [escape_cons, here, ih fun d mem => plain d (by simp [mem])]
    rfl

theorem decode_cons_of_ne (plain : c ≠ '&') (cs : List Char) : decode (c :: cs) = c :: decode cs := by
  rw [decode, if_neg plain]

theorem decode_ampersand {rest : List Char} (found : reference? cs = some (c, rest)) :
    decode ('&' :: cs) = c :: decode rest := by
  rw [decode, if_pos rfl]
  split
  · rename_i d tail here
    obtain ⟨rfl, rfl⟩ := Prod.mk.inj (Option.some.inj (here.symm.trans found))
    rfl
  · rename_i missing
    simp [missing] at found

theorem reference?_closed {name : List Char} (closed : ∀ d ∈ name, d ≠ ';') (rest : List Char) :
    reference? (name ++ ';' :: rest) = if name.length ≤ longestName then (named? name).map (·, rest) else none := by
  have all : ∀ d ∈ name, decide (d ≠ ';') = true := fun d mem => decide_eq_true (closed d mem)
  simp only [reference?, takeWhile_append_of_pos all, dropWhile_append_of_pos all]
  simp

theorem reference?_name (name : List Char) (closed : ∀ d ∈ name, d ≠ ';') (short : name.length ≤ longestName)
    (known : named? name = some c) (rest : List Char) : reference? (name ++ ';' :: rest) = some (c, rest) := by
  rw [reference?_closed closed, if_pos short, known]
  rfl

theorem decode_reference (special : c ∈ allMarks) (rest : List Char) : decode (reference c ++ rest) = c :: decode rest := by
  simp only [allMarks, mem_cons, not_mem_nil, or_false] at special
  rcases special with rfl | rfl | rfl | rfl | rfl
  · exact decode_ampersand (reference?_name "amp".toList (by simp) (by decide) (by decide) rest)
  · exact decode_ampersand (reference?_name "lt".toList (by simp) (by decide) (by decide) rest)
  · exact decode_ampersand (reference?_name "gt".toList (by simp) (by decide) (by decide) rest)
  · exact decode_ampersand (reference?_name "quot".toList (by simp) (by decide) (by decide) rest)
  · exact decode_ampersand (reference?_name "#39".toList (by simp) (by decide) (by decide) rest)

theorem decode_escape_append (escaping : Escaping marks) (cs rest : List Char) :
    decode (escape marks cs ++ rest) = cs ++ decode rest := by
  induction cs with
  | nil => rfl
  | cons c _ ih =>
    rw [escape_cons, append_assoc]
    by_cases marked : marks.contains c
    · have special := escaping.special c (by simpa using marked)
      rw [if_pos marked, decode_reference special, ih]
      rfl
    · have plain : c ≠ '&' := by
        rintro rfl
        exact marked (by simpa using escaping.ampersand)
      rw [if_neg marked, singleton_append, decode_cons_of_ne plain, ih]
      rfl

theorem decode_escape (escaping : Escaping marks) (cs : List Char) : decode (escape marks cs) = cs := by
  have whole := decode_escape_append escaping cs []
  rw [decode] at whole
  simpa using whole

theorem not_mem_reference (special : c ∈ allMarks) (other : mark ∈ allMarks) (apart : mark ≠ '&') :
    mark ∉ reference c := by
  simp only [allMarks, mem_cons, not_mem_nil, or_false] at special other
  rcases other with rfl | rfl | rfl | rfl | rfl
  · exact absurd rfl apart
  all_goals rcases special with rfl | rfl | rfl | rfl | rfl <;> decide

theorem not_mem_escape (escaping : Escaping marks) (marked : mark ∈ marks) (apart : mark ≠ '&') (cs : List Char) :
    mark ∉ escape marks cs := by
  intro mem
  obtain ⟨c, _, here⟩ := mem_flatMap.mp mem
  split at here
  · rename_i special
    exact not_mem_reference (escaping.special c (by simpa using special)) (escaping.special mark marked) apart here
  · rename_i plain
    obtain rfl := mem_singleton.mp here
    exact plain (by simpa using marked)

theorem escape_head (escaping : Escaping marks) (c : Char) (cs : List Char) :
    ∃ first rest, escape marks (c :: cs) = first :: rest ∧ isAscii first = isAscii c := by
  rw [escape_cons]
  split
  · rename_i marked
    have special := escaping.special c (by simpa using marked)
    simp only [allMarks, mem_cons, not_mem_nil, or_false] at special
    rcases special with rfl | rfl | rfl | rfl | rfl <;> exact ⟨_, _, rfl, rfl⟩
  · exact ⟨c, _, rfl, rfl⟩

end LiveMarkup.Markup.Entity
