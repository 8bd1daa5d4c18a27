/-!
Character references: how text is escaped for a place in markup, and how references are read back.
-/

namespace LiveMarkup.Markup.Entity

def reference : Char → List Char
  | '&' => "&amp;".toList
  | '<' => "&lt;".toList
  | '>' => "&gt;".toList
  | '"' => "&quot;".toList
  | '\'' => "&#39;".toList
  | c => [c]

def escape (marks : List Char) (cs : List Char) : List Char :=
  cs.flatMap fun c => if marks.contains c then reference c else [c]

def contentMarks : List Char := ['&', '<', '>']

def attributeMarks : List Char := ['&', '"', '<', '>']

def allMarks : List Char := ['&', '<', '>', '"', '\'']

def escapeContent (s : String) : String := String.ofList (escape contentMarks s.toList)

def escapeAttribute (s : String) : String := String.ofList (escape attributeMarks s.toList)

def escapeAll (s : String) : String := String.ofList (escape allMarks s.toList)

def digitValue (c : Char) : Option Nat :=
  if c.isDigit then some (c.toNat - 48)
  else if 'a' ≤ c ∧ c ≤ 'z' then some (c.toNat - 87)
  else if 'A' ≤ c ∧ c ≤ 'Z' then some (c.toNat - 55)
  else none

def digitsValue (base : Nat) : Nat → List Char → Option Nat
  | value, [] => some value
  | value, c :: rest =>
    match digitValue c with
    | some d => if d < base then digitsValue base (value * base + d) rest else none
    | none => none

/-- A number without sign or with `+`, of at least one digit. -/
def number? (base : Nat) (cs : List Char) : Option Nat :=
  let digits := match cs with
    | '+' :: rest => rest
    | _ => cs
  if digits.isEmpty then none else digitsValue base 0 digits

def scalar? (n : Nat) : Option Char :=
  if n.isValidChar then some (Char.ofNat n) else none

/-- The character that a reference's name, the text between `&` and `;`, stands for. -/
def named? (name : List Char) : Option Char :=
  if name = "amp".toList then some '&'
  else if name = "lt".toList then some '<'
  else if name = "gt".toList then some '>'
  else if name = "quot".toList then some '"'
  else if name = "apos".toList then some '\''
  else if name = "nbsp".toList then some '\u00a0'
  else match name with
    | '#' :: 'x' :: hex => (number? 16 hex).bind scalar?
    | '#' :: 'X' :: hex => (number? 16 hex).bind scalar?
    | '#' :: decimal => (number? 10 decimal).bind scalar?
    | _ => none

def longestName : Nat := 9

/-- The reference that the text after an `&` begins with, and the text behind its `;`. -/
def reference? (cs : List Char) : Option (Char × List Char) :=
  let name := cs.takeWhile (· ≠ ';')
  match cs.dropWhile (· ≠ ';') with
  | [] => none
  | _ :: rest => if name.length ≤ longestName then (named? name).map (·, rest) else none

theorem reference?_shorter {cs rest : List Char} {c : Char} (h : reference? cs = some (c, rest)) :
    rest.length < cs.length := by
  unfold reference? at h
  have total := congrArg List.length (List.takeWhile_append_dropWhile (p := (· ≠ ';')) (l := cs))
  split at h
  · simp at h
  · rename_i tail split
    rw [split] at total
    simp only [List.length_append, List.length_cons] at total
    dsimp only at h
    split at h
    · simp only [Option.map_eq_some_iff, Prod.mk.injEq] at h
      obtain ⟨_, _, _, rfl⟩ := h
      omega
    · simp at h

def decode : List Char → List Char
  | [] => []
  | c :: cs =>
    if c = '&' then
      match _found : reference? cs with
      | some (d, rest) => d :: decode rest
      | none => '&' :: decode cs
    else c :: decode cs
termination_by cs => cs.length
decreasing_by
  · have := reference?_shorter _found
    simp only [List.length_cons]
    omega
  · simp
  · simp

def decodeText (s : String) : String := String.ofList (decode s.toList)

end LiveMarkup.Markup.Entity
