import LiveMarkup.Proofs.Leniency
import Mathlib.Data.String.Basic

/-!
Reading markup by byte offsets. The reader keeps the offset of the byte it stands at, finds by offset what it looks for and
cuts texts from offset to offset, where a cut inside a character, behind the end or backwards fails. The loops of which it
is not plain that they end are given a number of rounds.

It is the reader of pieces of text: wherever it stands in front of a text, it reads the piece that begins there, cuts at the
ends of characters only, and stands in front of what is left.
-/

namespace LiveMarkup.Markup.Bytes
open Text List Option Entity Piece Nat
open String hiding append_assoc length_append takeWhile_append_dropWhile data

section Reader

inductive Stop where
  /-- A text was to be cut inside a character, behind its end or backwards. -/
  | badCut
  /-- The rounds that a loop may take were used up. -/
  | exhausted
  deriving Repr, DecidableEq

def cutFrom : Nat → List Char → Except Stop (List Char)
  | 0, cs => .ok cs
  | _ + 1, [] => .error .badCut
  | n + 1, c :: cs => if c.utf8Size ≤ n + 1 then cutFrom (n + 1 - c.utf8Size) cs else .error .badCut

def cutTo : Nat → List Char → Except Stop (List Char)
  | 0, _ => .ok []
  | _ + 1, [] => .error .badCut
  | n + 1, c :: cs => if c.utf8Size ≤ n + 1 then (c :: ·) <$> cutTo (n + 1 - c.utf8Size) cs else .error .badCut

def cut (first last : Nat) (cs : List Char) : Except Stop (List Char) :=
  if first ≤ last then cutFrom first cs >>= cutTo (last - first) else .error .badCut

/-- The offset of the first character that is not one of those to keep. -/
def find? (keep : Char → Bool) : List Char → Option Nat
  | [] => none
  | c :: cs => if keep c then (find? keep cs).map (· + c.utf8Size) else some 0

def findText? (mark : List Char) : List Char → Option Nat
  | [] => if mark.isEmpty then some 0 else none
  | c :: cs => if mark.isPrefixOf (c :: cs) then some 0 else (findText? mark cs).map (· + c.utf8Size)

/-- The last offset at which the `;` of a reference may stand behind its `&`. -/
def lastSemicolon : Nat := 10

/-- The character that is referred to by a text that begins with `&`, and how many bytes the reference takes. -/
def reference (cs : List Char) : Except Stop (Option (Char × Nat)) :=
  match find? (· ≠ ';') cs with
  | some last => if last ≤ lastSemicolon then do return (Entity.named? (← cut 1 last cs)).map (·, last + 1) else return none
  | none => return none

def decode : (rounds : Nat) → List Char → Except Stop (List Char)
  | 0, _ => .error .exhausted
  | rounds + 1, cs =>
    match find? (· ≠ '&') cs with
    | none => return cs
    | some ampersand => do
      let before ← cutTo ampersand cs
      let cs ← cutFrom ampersand cs
      match ← reference cs with
      | some (c, size) => return before ++ c :: (← decode rounds (← cutFrom size cs))
      | none => return before ++ '&' :: (← decode rounds (← cutFrom 1 cs))

def decoded (cs : List Char) : Except Stop (List Char) := decode (cs.length + 1) cs

variable (source : List Char)

def takeWhile (keep : Char → Bool) (pos : Nat) : Except Stop (List Char × Nat) := do
  let size := (find? keep (← cutFrom pos source)).getD (String.utf8Len source - pos)
  return (← cut pos (pos + size) source, pos + size)

def quotedValue (quote : Char) (pos : Nat) : Except Stop (List Char × Nat) := do
  let (raw, pos) ← takeWhile source (· ≠ quote) pos
  return (← decoded raw, min (pos + 1) (String.utf8Len source))

def bareValue (pos : Nat) : Except Stop (List Char × Nat) := do
  let (raw, pos) ← takeWhile source (fun c => !isBlank c && c != '>') pos
  return (← decoded raw, pos)

def attributeValue (pos : Nat) : Except Stop (List Char × Nat) := do
  let (_, pos) ← takeWhile source isBlank pos
  match ← cutFrom pos source with
  | '=' :: _ =>
    let (_, pos) ← takeWhile source isBlank (pos + 1)
    match ← cutFrom pos source with
    | '"' :: _ => quotedValue source '"' (pos + 1)
    | '\'' :: _ => quotedValue source '\'' (pos + 1)
    | _ => bareValue source pos
  | _ => return ([], pos)

def attributes : (rounds : Nat) → Attributes → Nat → Except Stop ((Attributes × Bool) × Nat)
  | 0, _, _ => .error .exhausted
  | rounds + 1, found, pos => do
    let (_, pos) ← takeWhile source isBlank pos
    match ← cutFrom pos source with
    | [] => return ((found, false), pos)
    | '/' :: '>' :: _ => return ((found, true), pos + 2)
    | '>' :: _ => return ((found, false), pos + 1)
    | '/' :: _ => attributes rounds found (pos + 1)
    | _ =>
      let (name, pos) ← takeWhile source Piece.isNameChar pos
      let (value, pos) ← attributeValue source pos
      attributes rounds (Piece.addAttribute found (String.ofList name) (String.ofList value)) pos

/-- The offset behind the end tag at an offset, if a whole one stands there. -/
def pastEndTag (pos : Nat) : Except Stop Nat := do
  match ← cutFrom pos source with
  | '<' :: '/' :: tail => return ((find? (· ≠ '>') ('<' :: '/' :: tail)).map fun last => pos + (last + 1)).getD pos
  | _ => return pos

/-- The body of an element of raw text, and the offset behind its end tag. -/
def rawBody (tag : String) (pos : Nat) : Except Stop (List Char × Nat) := do
  let rest ← cutFrom pos source
  let last := (findText? ("</" ++ tag).toList rest).getD (String.utf8Len rest)
  return (← cutTo last rest, ← pastEndTag source (pos + last))

def startTag (pos : Nat) : Except Stop (Piece × Nat) := do
  let (name, pos) ← takeWhile source Piece.isTagChar pos
  let tag := String.ofList name
  let ((found, selfClosing), pos) ← attributes source (source.length + 1) [] pos
  if !selfClosing && Element.isRawText tag then
    let (body, pos) ← rawBody source tag pos
    return (.rawElement tag found (String.ofList body), pos)
  else return (.startTag tag found selfClosing, pos)

/-- What stands before the first `>` of a text, behind a head of two bytes, and how many bytes that takes. -/
def upToClose (rest : List Char) : Except Stop (List Char × Nat) :=
  match find? (· ≠ '>') rest with
  | some last => do return (← cut 2 last rest, last + 1)
  | none => do return (← cutFrom 2 rest, String.utf8Len rest)

def opensTag : List Char → Except Stop Bool
  | '<' :: cs => do return ((← cutFrom 1 ('<' :: cs)).head?.map Char.isAlpha).getD false
  | _ => return false

def text (pos : Nat) (rest : List Char) : Except Stop (Piece × Nat) := do
  let last := ((find? (· ≠ '<') (← cutFrom 1 rest)).map (· + 1)).getD (String.utf8Len rest)
  return (.text (String.ofList (← decoded (← cutTo last rest))), pos + last)

def next (pos : Nat) : Except Stop (Piece × Nat) := do
  let rest ← cutFrom pos source
  match rest with
  | '<' :: '!' :: '-' :: '-' :: body =>
    match findText? "-->".toList body with
    | some last => return (.comment (String.ofList (← cutTo last body)), pos + (4 + last + 3))
    | none => return (.comment (String.ofList body), pos + String.utf8Len rest)
  | '<' :: '!' :: _ | '<' :: '?' :: _ =>
    let (data, size) ← upToClose rest
    return (.comment (String.ofList data), pos + size)
  | '<' :: '/' :: _ =>
    let (name, size) ← upToClose rest
    return (.endTag (String.ofList (trim name)), pos + size)
  | _ =>
    if ← opensTag rest then startTag source (pos + 1) else text pos rest

def scan : (rounds : Nat) → Nat → Except Stop (List Piece × Nat)
  | 0, _ => .error .exhausted
  | rounds + 1, pos =>
    if pos < String.utf8Len source then do
      let (piece, pos) ← next source pos
      let (pieces, pos) ← scan rounds pos
      return (piece :: pieces, pos)
    else return ([], pos)

def read (markup : String) : Except Stop (List Tree × Nat) := do
  let (pieces, pos) ← scan markup.toList (markup.utf8ByteSize + 1) 0
  return ((pieces.foldl OpenElements.step .start).finish, pos)

end Reader

section Cuts

variable {keep : Char → Bool} {cs : List Char} {c : Char}

theorem exists_utf8Len_cons (c : Char) (cs : List Char) :
    ∃ n, utf8Len (c :: cs) = n + 1 ∧ c.utf8Size ≤ n + 1 ∧ n + 1 - c.utf8Size = utf8Len cs := by
  have wide := c.utf8Size_pos
  refine ⟨utf8Len cs + c.utf8Size - 1, ?_⟩
  rw [utf8Len_cons]
  omega

theorem cutFrom_append (before rest : List Char) : cutFrom (utf8Len before) (before ++ rest) = .ok rest := by
  induction before with
  | nil => cases rest <;> rfl
  | cons c before ih =>
    obtain ⟨_, size, fits, left⟩ := exists_utf8Len_cons c before
    rw [size, cons_append, cutFrom, if_pos fits, left, ih]

theorem cutTo_append (before rest : List Char) : cutTo (utf8Len before) (before ++ rest) = .ok before := by
  induction before with
  | nil => cases rest <;> rfl
  | cons c before ih =>
    obtain ⟨_, size, fits, left⟩ := exists_utf8Len_cons c before
    rw [size, cons_append, cutTo, if_pos fits, left, ih]
    rfl

theorem cut_append (before middle rest : List Char) :
    cut (utf8Len before) (utf8Len before + utf8Len middle) (before ++ (middle ++ rest)) = .ok middle := by
  rw [cut, if_pos (Nat.le_add_right _ _), cutFrom_append, Nat.add_sub_cancel_left]
  exact cutTo_append middle rest

theorem utf8Size_eq_one : c.utf8Size = 1 ↔ isAscii c = true := by
  rw [Char.utf8Size_eq_one_iff, UInt32.le_iff_toNat_le, Char.toNat_val]
  simp [isAscii, Nat.lt_succ_iff]

theorem cutFrom_one (c : Char) (cs : List Char) :
    cutFrom 1 (c :: cs) = if isAscii c then .ok cs else .error .badCut := by
  have wide := c.utf8Size_pos
  by_cases ascii : isAscii c = true
  · have one := utf8Size_eq_one.mpr ascii
    simp [cutFrom, one, ascii]
  · have more : ¬ c.utf8Size ≤ 1 := fun low => ascii (utf8Size_eq_one.mp (by omega))
    simp [cutFrom, more, ascii]

theorem find?_eq (keep : Char → Bool) (cs : List Char) :
    find? keep cs = if cs.dropWhile keep = [] then none else some (utf8Len (cs.takeWhile keep)) := by
  induction cs with
  | nil => rfl
  | cons c _ ih =>
    rw [find?, ih]
    by_cases kept : keep c = true
    · simp only [kept, if_true, dropWhile_cons_of_pos, takeWhile_cons_of_pos, utf8Len_cons]
      split <;> simp
    · simp [kept]

theorem find?_none (none : cs.dropWhile keep = []) : find? keep cs = .none := by
  rw [find?_eq, if_pos none]

theorem find?_some {rest : List Char} (some : cs.dropWhile keep = c :: rest) :
    find? keep cs = .some (utf8Len (cs.takeWhile keep)) := by
  rw [find?_eq, if_neg (by simp [some])]

theorem find?_getD (keep : Char → Bool) (cs : List Char) :
    (find? keep cs).getD (utf8Len cs) = utf8Len (cs.takeWhile keep) := by
  rw [find?_eq]
  split
  · rename_i all
    have whole := takeWhile_append_dropWhile (p := keep) (l := cs)
    rw [all, append_nil] at whole
    rw [whole]
    rfl
  · rfl

theorem findText?_eq (mark cs : List Char) :
    findText? mark cs = (splitOnceAt mark cs).map fun (before, _) => utf8Len before := by
  induction cs with
  | nil =>
    rw [findText?, splitOnceAt]
    split <;> rfl
  | cons _ _ ih =>
    rw [findText?, splitOnceAt, ih]
    split
    · rfl
    · simp [Option.map_map, Function.comp_def]

end Cuts

variable {rounds : Nat}

section References

variable {cs : List Char} {c : Char} {name rest : List Char} {base n : Nat}

theorem isAscii_of_digitValue {d : Nat} (digit : digitValue c = some d) : isAscii c = true := by
  unfold digitValue at digit
  simp only [isAscii, decide_eq_true_eq]
  split at digit
  · rename_i decimal
    simp only [Char.isDigit, Bool.and_eq_true, decide_eq_true_eq, UInt32.le_iff_toNat_le, Char.toNat_val] at decimal
    exact decimal.2.trans_lt (by decide)
  · split at digit
    · rename_i small
      exact (UInt32.le_iff_toNat_le.mp (Char.le_def.mp small.2)).trans_lt (by decide)
    · split at digit
      · rename_i capital
        exact (UInt32.le_iff_toNat_le.mp (Char.le_def.mp capital.2)).trans_lt (by decide)
      · cases digit

theorem ascii_of_digitsValue {value : Nat} (digits : digitsValue base value cs = some n) :
    ∀ c ∈ cs, isAscii c = true := by
  induction cs generalizing value with
  | nil => simp
  | cons _ _ ih =>
    rw [digitsValue] at digits
    split at digits
    · rename_i digit
      split at digits
      · exact forall_mem_cons.mpr ⟨isAscii_of_digitValue digit, ih digits⟩
      · cases digits
    · cases digits

theorem ascii_of_number? (number : number? base cs = some n) : ∀ c ∈ cs, isAscii c = true := by
  unfold number? at number
  split at number
  · dsimp only at number
    split at number
    · cases number
    · exact forall_mem_cons.mpr ⟨rfl, ascii_of_digitsValue number⟩
  · dsimp only at number
    split at number
    · cases number
    · exact ascii_of_digitsValue number

theorem ascii_of_text (text : String) (same : name = text.toList) (ascii : text.toList.all isAscii = true) :
    ∀ d ∈ name, isAscii d = true := by
  rw [same]
  exact all_eq_true.mp ascii

theorem ascii_of_named? (named : named? name = some c) : ∀ d ∈ name, isAscii d = true := by
  unfold named? at named
  split at named
  · exact ascii_of_text "amp" ‹_› rfl
  split at named
  · exact ascii_of_text "lt" ‹_› rfl
  split at named
  · exact ascii_of_text "gt" ‹_› rfl
  split at named
  · exact ascii_of_text "quot" ‹_› rfl
  split at named
  · exact ascii_of_text "apos" ‹_› rfl
  split at named
  · exact ascii_of_text "nbsp" ‹_› rfl
  split at named
  · obtain ⟨_, number, _⟩ := bind_eq_some_iff.mp named
    exact forall_mem_cons.mpr ⟨rfl, forall_mem_cons.mpr ⟨rfl, ascii_of_number? number⟩⟩
  · obtain ⟨_, number, _⟩ := bind_eq_some_iff.mp named
    exact forall_mem_cons.mpr ⟨rfl, forall_mem_cons.mpr ⟨rfl, ascii_of_number? number⟩⟩
  · obtain ⟨_, number, _⟩ := bind_eq_some_iff.mp named
    exact forall_mem_cons.mpr ⟨rfl, ascii_of_number? number⟩
  · cases named

theorem length_le_utf8Len (cs : List Char) : cs.length ≤ utf8Len cs := by
  induction cs with
  | nil => rfl
  | cons c =>
    have := c.utf8Size_pos
    simp only [length_cons, utf8Len_cons]
    omega

theorem utf8Len_ascii (ascii : ∀ c ∈ cs, isAscii c = true) : utf8Len cs = cs.length := by
  induction cs with
  | nil => rfl
  | cons _ _ ih =>
    obtain ⟨first, others⟩ := forall_mem_cons.mp ascii
    rw [utf8Len_cons, ih others, utf8Size_eq_one.mpr first, length_cons]

theorem named?_of_short (name : List Char) : (if utf8Len name ≤ longestName then named? name else none) =
      if name.length ≤ longestName then named? name else none := by
  cases named : named? name with
  | none => simp
  | some => rw [utf8Len_ascii (ascii_of_named? named)]

theorem eq_of_dropWhile {keep : Char → Bool} (stops : cs.dropWhile keep = c :: rest) :
    cs = cs.takeWhile keep ++ c :: rest ∧ keep c = false := by
  refine ⟨by rw [← stops, takeWhile_append_dropWhile], ?_⟩
  have head := head?_dropWhile_not keep cs
  simpa [stops] using head

theorem reference_eq (cs : List Char) : reference ('&' :: cs) =
    .ok ((reference? cs).map fun (c, _) => (c, utf8Len (cs.takeWhile (· ≠ ';')) + 2)) := by
  have skips : ('&' :: cs).dropWhile (· ≠ ';') = cs.dropWhile (· ≠ ';') := dropWhile_cons_of_pos (p := (· ≠ ';')) rfl
  have takes : ('&' :: cs).takeWhile (· ≠ ';') = '&' :: cs.takeWhile (· ≠ ';') :=
    takeWhile_cons_of_pos (p := (· ≠ ';')) rfl
  cases stops : cs.dropWhile (· ≠ ';') with
  | nil =>
    have nothing : reference? cs = none := by simp only [reference?, stops]
    rw [reference, find?_none (skips.trans stops), nothing]
    rfl
  | cons c rest =>
    obtain ⟨whole, _⟩ := eq_of_dropWhile stops
    have looked : reference? cs = (if utf8Len (cs.takeWhile (· ≠ ';')) ≤ longestName then
        named? (cs.takeWhile (· ≠ ';')) else none).map (·, rest) := by
      simp only [reference?, stops]
      rw [named?_of_short]
      split <;> rfl
    have name : cut 1 (1 + utf8Len (cs.takeWhile (· ≠ ';'))) ('&' :: cs) = .ok (cs.takeWhile (· ≠ ';')) := by
      have between := cut_append ['&'] (cs.takeWhile (· ≠ ';')) (c :: rest)
      rwa [← whole] at between
    have size : utf8Len (('&' :: cs).takeWhile (· ≠ ';')) = 1 + utf8Len (cs.takeWhile (· ≠ ';')) := by
      rw [takes, utf8Len_cons, add_comm]
      rfl
    rw [reference, find?_some (skips.trans stops), looked, size]
    dsimp only
    by_cases short : utf8Len (cs.takeWhile (· ≠ ';')) ≤ longestName
    · have low : 1 + utf8Len (cs.takeWhile (· ≠ ';')) ≤ lastSemicolon := by
        simp only [longestName, lastSemicolon] at short ⊢
        omega
      have behind : 1 + utf8Len (cs.takeWhile (· ≠ ';')) + 1 = utf8Len (cs.takeWhile (· ≠ ';')) + 2 := by omega
      rw [if_pos low, if_pos short, name, behind]
      simp only [bind, Except.bind]
      cases named? (cs.takeWhile (· ≠ ';')) <;> rfl
    · have high : ¬ 1 + utf8Len (cs.takeWhile (· ≠ ';')) ≤ lastSemicolon := by
        simp only [longestName, lastSemicolon] at short ⊢
        omega
      rw [if_neg high, if_neg short]
      rfl

theorem eq_of_reference? (found : reference? cs = some (c, rest)) : cs = cs.takeWhile (· ≠ ';') ++ ';' :: rest := by
  unfold reference? at found
  split at found
  · cases found
  · rename_i d tail stops
    obtain ⟨whole, stop⟩ := eq_of_dropWhile stops
    obtain rfl : d = ';' := by simpa using stop
    dsimp only at found
    split at found
    · obtain ⟨_, _, same⟩ := map_eq_some_iff.mp found
      rwa [(Prod.mk.inj same).2] at whole
    · cases found

theorem decode_of_reference?_none (missing : Entity.reference? cs = none) :
    Entity.decode ('&' :: cs) = '&' :: Entity.decode cs := by
  rw [Entity.decode, if_pos rfl]
  split
  · rename_i found
    simp [missing] at found
  · rfl

theorem decode_append_of_ne {before : List Char} (plain : ∀ c ∈ before, c ≠ '&') (rest : List Char) :
    Entity.decode (before ++ rest) = before ++ Entity.decode rest := by
  induction before with
  | nil => rfl
  | cons _ _ ih =>
    obtain ⟨first, others⟩ := forall_mem_cons.mp plain
    rw [cons_append, Entity.decode_cons_of_ne first, ih others, cons_append]

theorem decode_eq (enough : cs.length < rounds) : decode rounds cs = .ok (Entity.decode cs) := by
  induction rounds generalizing cs with
  | zero => omega
  | succ rounds ih =>
    have plain : ∀ c ∈ cs.takeWhile (· ≠ '&'), c ≠ '&' := fun c mem => by simpa using mem_takeWhile_imp mem
    cases stops : cs.dropWhile (· ≠ '&') with
    | nil =>
      have all := takeWhile_append_dropWhile (p := (· ≠ '&')) (l := cs)
      rw [stops, append_nil] at all
      have same := decode_append_of_ne plain []
      rw [all, append_nil, Entity.decode, append_nil] at same
      rw [decode, find?_none stops, same]
      rfl
    | cons c rest =>
      obtain ⟨whole, stop⟩ := eq_of_dropWhile stops
      obtain rfl : c = '&' := by simpa using stop
      have size : rest.length < rounds := by
        have := congrArg List.length whole
        rw [length_append, length_cons] at this
        omega
      have same := decode_append_of_ne plain ('&' :: rest)
      have before := cutTo_append (cs.takeWhile (· ≠ '&')) ('&' :: rest)
      have behind := cutFrom_append (cs.takeWhile (· ≠ '&')) ('&' :: rest)
      rw [← whole] at same before behind
      rw [decode, find?_some stops]
      simp only [before, behind, bind, Except.bind, reference_eq]
      cases found : Entity.reference? rest with
      | none =>
        have one : cutFrom 1 ('&' :: rest) = .ok rest := cutFrom_one _ _
        simp only [map_none, one, ih size, same]
        rw [decode_of_reference?_none found]
        rfl
      | some read =>
        obtain ⟨_, left⟩ := read
        have shorter := Entity.reference?_shorter found
        have skipped := cutFrom_append ('&' :: (rest.takeWhile (· ≠ ';') ++ [';'])) left
        rw [cons_append, append_assoc, singleton_append, ← eq_of_reference? found] at skipped
        have size : utf8Len ('&' :: (rest.takeWhile (· ≠ ';') ++ [';'])) =
            utf8Len (rest.takeWhile (· ≠ ';')) + 2 := by
          simp
          rfl
        rw [size] at skipped
        simp only [map_some, skipped, ih (show left.length < rounds by omega), same, Entity.decode_ampersand found]
        rfl

theorem decoded_eq (cs : List Char) : decoded cs = .ok (Entity.decode cs) := decode_eq (lt_succ_self _)

end References

section Standing

variable {source : List Char} {cs : List Char} {c : Char}
variable {body : List Char} {second first : Char} {α : Type} {value : α} {left : List Char}

/-- A reader at an offset of a text has that text in front of it. -/
def At (source : List Char) (pos : Nat) (rest : List Char) : Prop :=
  ∃ before, source = before ++ rest ∧ pos = String.utf8Len before

theorem at_start (source : List Char) : At source 0 source := ⟨[], rfl, rfl⟩

namespace At

variable {pos : Nat} {rest : List Char} {taken : List Char}

theorem cutFrom_eq (stands : At source pos rest) : cutFrom pos source = .ok rest := by
  obtain ⟨before, rfl, rfl⟩ := stands
  exact cutFrom_append before rest

theorem cutFrom_bind {α : Type} (stands : At source pos rest) (next : List Char → Except Stop α) :
    cutFrom pos source >>= next = next rest := by
  rw [stands.cutFrom_eq]
  rfl

theorem cut_eq (stands : At source pos (taken ++ rest)) : cut pos (pos + utf8Len taken) source = .ok taken := by
  obtain ⟨before, rfl, rfl⟩ := stands
  exact cut_append before taken rest

theorem past (stands : At source pos (taken ++ rest)) : At source (pos + utf8Len taken) rest := by
  obtain ⟨before, rfl, rfl⟩ := stands
  exact ⟨before ++ taken, by rw [append_assoc], by rw [utf8Len_append]⟩

theorem past_of {size : Nat} (stands : At source pos rest) (whole : rest = taken ++ left)
    (bytes : utf8Len taken = size) : At source (pos + size) left := by
  subst whole bytes
  exact stands.past

theorem total (stands : At source pos rest) : pos + utf8Len rest = utf8Len source := by
  obtain ⟨_, rfl, rfl⟩ := stands
  rw [utf8Len_append]

theorem past_char {c : Char} (stands : At source pos (c :: rest)) (ascii : isAscii c = true) : At source (pos + 1) rest := by
  have one : utf8Len [c] = 1 := by rw [utf8Len_ascii (by simpa using ascii)]; rfl
  rw [← one]
  have read : At source pos ([c] ++ rest) := stands
  exact read.past

theorem past_end (stands : At source pos rest) : At source (pos + utf8Len rest) [] :=
  past (by rwa [append_nil])

theorem unique {other : List Char} (stands : At source pos rest) (too : At source pos other) : rest = other :=
  Except.ok.inj (stands.cutFrom_eq.symm.trans too.cutFrom_eq)

end At

def Yields {α : Type} (source : List Char) (out : Except Stop (α × Nat)) (value : α) (rest : List Char) : Prop :=
  ∃ pos, out = .ok (value, pos) ∧ At source pos rest

theorem Yields.bind {β : Type} {out : Except Stop (α × Nat)} {next : α × Nat → Except Stop (β × Nat)} {result : β}
    {rest : List Char} (yields : Yields source out value rest)
    (onward : ∀ pos, At source pos rest → Yields source (next (value, pos)) result left) :
    Yields source (out >>= next) result left := by
  obtain ⟨pos, rfl, stands⟩ := yields
  exact onward pos stands

theorem Yields.pure {pos : Nat} {rest : List Char} (stands : At source pos rest) :
    Yields source (Pure.pure (value, pos)) value rest := ⟨pos, rfl, stands⟩

variable {pos : Nat} {rest : List Char}

theorem yields_takeWhile (stands : At source pos rest) (keep : Char → Bool) :
    Yields source (takeWhile source keep pos) (rest.takeWhile keep) (rest.dropWhile keep) := by
  have size : (find? keep rest).getD (utf8Len source - pos) = utf8Len (rest.takeWhile keep) := by
    rw [← stands.total, Nat.add_sub_cancel_left, find?_getD]
  have split : At source pos (rest.takeWhile keep ++ rest.dropWhile keep) := by rwa [takeWhile_append_dropWhile]
  refine ⟨_, ?_, split.past⟩
  simp only [takeWhile, stands.cutFrom_eq, Bind.bind, Except.bind, size, split.cut_eq]
  rfl

theorem yields_quotedValue (quote : Char) (stands : At source pos rest) (ascii : isAscii quote = true) :
    Yields source (quotedValue source quote pos) (Entity.decode (rest.takeWhile (· ≠ quote)))
      ((rest.dropWhile (· ≠ quote)).drop 1) := by
  refine (yields_takeWhile stands (· ≠ quote)).bind fun pos stands => ?_
  cases stops : rest.dropWhile (· ≠ quote) with
  | nil =>
    rw [stops] at stands
    have last := stands.total
    refine ⟨pos, ?_, stands⟩
    simp only [decoded_eq, Bind.bind, Except.bind]
    rw [Nat.min_eq_right (by simp at last; omega), ← last]
    rfl
  | cons c =>
    obtain rfl : c = quote := by simpa using (eq_of_dropWhile stops).2
    rw [stops] at stands
    have behind := stands.past_char ascii
    have last := behind.total
    refine ⟨pos + 1, ?_, behind⟩
    simp only [decoded_eq, Bind.bind, Except.bind]
    rw [Nat.min_eq_left (by omega)]
    rfl

theorem yields_bareValue (stands : At source pos rest) :
    Yields source (bareValue source pos) (Entity.decode (rest.takeWhile fun c => !isBlank c && c != '>'))
      (rest.dropWhile fun c => !isBlank c && c != '>') := by
  refine (yields_takeWhile stands fun c => !isBlank c && c != '>').bind fun pos stands => ?_
  refine ⟨pos, ?_, stands⟩
  simp only [decoded_eq, Bind.bind, Except.bind]
  rfl

theorem yields_blanks (stands : At source pos rest) :
    Yields source (takeWhile source isBlank pos) (rest.takeWhile isBlank) (trimStart rest) :=
  yields_takeWhile stands isBlank

theorem yields_attributeValue (stands : At source pos rest) :
    Yields source (attributeValue source pos) (Piece.attributeValue rest).1 (Piece.attributeValue rest).2 := by
  refine (yields_blanks stands).bind fun pos stands => ?_
  unfold Piece.attributeValue
  simp only [stands.cutFrom_bind]
  generalize trimStart rest = behind at stands
  split
  · refine (yields_blanks (stands.past_char rfl)).bind fun pos stands => ?_
    simp only [stands.cutFrom_bind]
    generalize trimStart _ = behind at stands
    split
    · exact yields_quotedValue '"' (stands.past_char rfl) rfl
    · exact yields_quotedValue '\'' (stands.past_char rfl) rfl
    · simpa only using yields_bareValue stands
  · simpa only using Yields.pure stands

theorem scanAttributes_eq (found : Attributes) (cs : List Char) : Piece.scanAttributes found cs =
    match trimStart cs with
    | [] => (found, false, [])
    | '/' :: '>' :: rest => (found, true, rest)
    | '>' :: rest => (found, false, rest)
    | '/' :: rest => Piece.scanAttributes found rest
    | behind => Piece.scanAttributes
        (Piece.addAttribute found (ofList (behind.takeWhile Piece.isNameChar))
          (ofList (Piece.attributeValue (behind.dropWhile Piece.isNameChar)).1))
        (Piece.attributeValue (behind.dropWhile Piece.isNameChar)).2 := by
  rw [Piece.scanAttributes]
  split
  · rename_i empty
    rw [empty]
  · rename_i c rest here
    rw [here]
    by_cases close : c = '>'
    · subst close; rfl
    by_cases slash : c = '/'
    · subst slash
      by_cases closed : rest.head? = some '>'
      · obtain ⟨_, rfl⟩ := head?_eq_some_iff.mp closed
        rfl
      · simp only [reduceDIte, if_neg closed, Char.reduceEq]
        split <;> simp_all
    · simp only [dif_neg close, dif_neg slash]
      split <;> simp_all

theorem yields_attributes (enough : rest.length < rounds) (found : Attributes) (stands : At source pos rest) :
    Yields source (attributes source rounds found pos)
      ((Piece.scanAttributes found rest).1, (Piece.scanAttributes found rest).2.1) (Piece.scanAttributes found rest).2.2 := by
  induction rounds generalizing rest found pos with
  | zero => omega
  | succ rounds ih =>
    refine (yields_blanks stands).bind fun pos stands => ?_
    have shorter (c tail) (here : trimStart rest = c :: tail) : tail.length < rounds := by
      have := Piece.trimStart_cons_length here
      omega
    have left (c tail) (here : trimStart rest = c :: tail) (close : c ≠ '>') (slash : c ≠ '/') :
        (Piece.attributeValue ((c :: tail).dropWhile Piece.isNameChar)).2.length < rounds := by
      have := shorter c tail here
      have := Piece.attributeValue_shorter tail (Piece.trimStart_cons_not_blank here) close slash
      omega
    rw [scanAttributes_eq]
    simp only [stands.cutFrom_bind]
    generalize trimStart rest = behind at stands shorter left
    split
    · exact .pure stands
    · exact .pure ((stands.past_char rfl).past_char rfl)
    · exact .pure (stands.past_char rfl)
    · simpa only using ih (shorter _ _ rfl) found (stands.past_char rfl)
    · rename_i empty closed close slash
      obtain _ | ⟨c, tail⟩ := behind
      · exact absurd rfl empty
      refine (yields_takeWhile stands Piece.isNameChar).bind fun pos stands => ?_
      refine (yields_attributeValue stands).bind fun pos stands => ?_
      exact ih (left c tail rfl (fun same => close tail (by rw [same])) fun same => slash tail (by rw [same])) _ stands

theorem yields_upToClose (stands : At source pos (first :: second :: body))
    (narrow : isAscii first = true ∧ isAscii second = true) (open_ : first ≠ '>' ∧ second ≠ '>') :
    ∃ size, upToClose (first :: second :: body) = .ok ((Piece.upToClose body).1, size) ∧
      At source (pos + size) (Piece.upToClose body).2 := by
  have two : utf8Len [first, second] = 2 := by
    rw [utf8Len_ascii (by simpa using narrow)]
    rfl
  have skips : (first :: second :: body).dropWhile (· ≠ '>') = body.dropWhile (· ≠ '>') := by simp [open_]
  have takes : (first :: second :: body).takeWhile (· ≠ '>') = [first, second] ++ body.takeWhile (· ≠ '>') := by simp [open_]
  cases stops : body.dropWhile (· ≠ '>') with
  | nil =>
    have whole := takeWhile_append_dropWhile (p := (· ≠ '>')) (l := body)
    rw [stops, append_nil] at whole
    have behind : cutFrom 2 (first :: second :: body) = .ok body := by
      have := cutFrom_append [first, second] body
      rwa [two] at this
    refine ⟨utf8Len (first :: second :: body), ?_, ?_⟩
    · rw [upToClose, find?_none (skips.trans stops), Piece.upToClose, whole]
      simp only [behind]
      rfl
    · rw [Piece.upToClose, stops]
      exact stands.past_end
  | cons c rest =>
    obtain ⟨whole, stop⟩ := eq_of_dropWhile stops
    obtain rfl : c = '>' := by simpa using stop
    have size : utf8Len (first :: second :: body.takeWhile (· ≠ '>')) = 2 + utf8Len (body.takeWhile (· ≠ '>')) := by
      rw [← two, ← utf8Len_append]
      rfl
    have between := cut_append [first, second] (body.takeWhile (· ≠ '>')) ('>' :: rest)
    rw [two, ← whole] at between
    refine ⟨2 + utf8Len (body.takeWhile (· ≠ '>')) + 1, ?_, ?_⟩
    · rw [upToClose, find?_some (skips.trans stops), takes, cons_append, cons_append, nil_append, size,
        Piece.upToClose]
      simp only [cons_append, nil_append] at between
      simp only [between]
      rfl
    · rw [Piece.upToClose, stops]
      have tag : first :: second :: body = (first :: second :: body.takeWhile (· ≠ '>') ++ ['>']) ++ rest := by
        rw [append_assoc, cons_append, cons_append, singleton_append]
        exact congrArg (first :: second :: ·) whole
      refine stands.past_of tag ?_
      rw [utf8Len_append, size]
      rfl

theorem pastEndTag_eq {tail : List Char} (stands : At source pos ('<' :: '/' :: tail)) :
    ∃ next, pastEndTag source pos = .ok next ∧ At source next
      (if ('<' :: '/' :: tail).contains '>' then (Piece.upToClose ('<' :: '/' :: tail)).2 else '<' :: '/' :: tail) := by
  rw [pastEndTag]
  simp only [stands.cutFrom_bind]
  refine ⟨_, rfl, ?_⟩
  cases stops : ('<' :: '/' :: tail).dropWhile (· ≠ '>') with
  | nil =>
    have absent : ('<' :: '/' :: tail).contains '>' = false := by
      refine Bool.eq_false_iff.mpr fun mem => ?_
      simpa using dropWhile_eq_nil_iff.mp stops _ (contains_iff_mem.mp mem)
    rw [find?_none stops, absent]
    exact stands
  | cons c rest =>
    obtain ⟨whole, stop⟩ := eq_of_dropWhile stops
    obtain rfl : c = '>' := by simpa using stop
    have present : ('<' :: '/' :: tail).contains '>' = true := by
      rw [contains_iff_mem, whole]
      exact mem_append_right _ mem_cons_self
    rw [find?_some stops, present, Piece.upToClose, stops]
    have tag : '<' :: '/' :: tail = (('<' :: '/' :: tail).takeWhile (· ≠ '>') ++ ['>']) ++ rest := by
      rw [append_assoc, singleton_append]
      exact whole
    exact stands.past_of tag (utf8Len_append _ _)

theorem yields_rawBody (tag : String) (stands : At source pos rest) :
    Yields source (rawBody source tag pos) (Piece.rawBody tag rest).1 (Piece.rawBody tag rest).2 := by
  rw [rawBody, Piece.rawBody]
  simp only [stands.cutFrom_bind, findText?_eq]
  cases found : splitOnceAt ("</" ++ tag).toList rest with
  | none =>
    have all := cutTo_append rest []
    rw [append_nil] at all
    simp only [map_none, getD_none, all, pastEndTag, stands.past_end.cutFrom_bind]
    exact .pure stands.past_end
  | some split =>
    obtain ⟨body, after⟩ := split
    have whole := splitOnceAt_eq found
    have rest_eq : rest.drop body.length = '<' :: '/' :: (tag.toList ++ after) := by
      rw [whole, drop_left, toList_append]
      rfl
    have split : rest = body ++ rest.drop body.length := by rw [whole, drop_left]
    have before := cutTo_append body (rest.drop body.length)
    rw [← split] at before
    have behind := stands.past_of split rfl
    rw [rest_eq] at behind
    obtain ⟨next, ended, behind⟩ := pastEndTag_eq behind
    simp only [map_some, getD_some, before, ended, rest_eq]
    refine ⟨next, ?_, ?_⟩
    · split <;> rfl
    · convert behind using 1
      split <;> rfl

theorem yields_startTag (stands : At source pos rest) :
    Yields source (startTag source pos) (scanStartTag rest).1 (scanStartTag rest).2 := by
  refine (yields_takeWhile stands isTagChar).bind fun pos stands => ?_
  have enough : (rest.dropWhile isTagChar).length < source.length + 1 := by
    obtain ⟨_, whole, _⟩ := stands
    rw [whole, length_append]
    omega
  refine (yields_attributes enough [] stands).bind fun pos stands => ?_
  unfold scanStartTag
  generalize scanAttributes [] (rest.dropWhile isTagChar) = scanned at stands
  obtain ⟨_, _, _⟩ := scanned
  dsimp only at stands ⊢
  split
  · exact (yields_rawBody _ stands).bind fun pos stands => .pure stands
  · exact .pure stands

/-- A reader gives the piece that there is and has the rest in front of it, or fails at a cut where there is none. -/
def Agrees (source : List Char) (out : Except Stop (Piece × Nat)) : Option (Piece × List Char) → Prop
  | some (piece, left) => Yields source out piece left
  | none => out = .error .badCut

theorem yields_text (stands : At source pos (c :: cs)) (ascii : isAscii c = true) :
    Yields source (text pos (c :: cs)) (.text (ofList (Entity.decode (c :: cs.takeWhile (· ≠ '<')))))
      (cs.dropWhile (· ≠ '<')) := by
  have last : ((find? (· ≠ '<') cs).map (· + 1)).getD (utf8Len (c :: cs)) =
      utf8Len (c :: cs.takeWhile (· ≠ '<')) := by
    rw [utf8Len_cons, utf8Len_cons, utf8Size_eq_one.mpr ascii, Option.getD_map, find?_getD]
  have whole : c :: cs = (c :: cs.takeWhile (· ≠ '<')) ++ cs.dropWhile (· ≠ '<') := by
    rw [cons_append, takeWhile_append_dropWhile]
  have run := cutTo_append (c :: cs.takeWhile (· ≠ '<')) (cs.dropWhile (· ≠ '<'))
  rw [← whole] at run
  refine ⟨_, ?_, stands.past_of whole rfl⟩
  rw [text, cutFrom_one, if_pos ascii]
  simp only [bind, Except.bind, last, run, decoded_eq]
  rfl

theorem text_outside_ascii (foreign : isAscii c = false) (pos : Nat) (cs : List Char) :
    text pos (c :: cs) = .error .badCut := by
  rw [text, cutFrom_one, foreign]
  rfl

theorem yields_upToClose_then (stands : At source pos (first :: second :: body))
    (narrow : isAscii first = true ∧ isAscii second = true) (open_ : first ≠ '>' ∧ second ≠ '>') (piece : List Char → Piece) :
    Yields source (upToClose (first :: second :: body) >>= fun (data, size) => return (piece data, pos + size))
      (piece (Piece.upToClose body).1) (Piece.upToClose body).2 := by
  obtain ⟨_, read, behind⟩ := yields_upToClose stands narrow open_
  rw [read]
  exact .pure behind

theorem opensTag_eq (c : Char) (cs : List Char) :
    opensTag (c :: cs) = .ok (decide (c = '<') && (cs.head?.map Char.isAlpha).getD false) := by
  unfold opensTag
  split
  · rename_i same
    obtain ⟨rfl, rfl⟩ := cons.inj same
    rw [cutFrom_one]
    rfl
  · rename_i other
    have apart : c ≠ '<' := fun same => other cs (by rw [same])
    simp only [apart, decide_false, Bool.false_and]
    rfl

theorem next_tag_or_text (stands : At source pos (c :: cs)) (bang : ∀ body, c = '<' → cs = '!' :: body → False)
    (question : ∀ body, c = '<' → cs = '?' :: body → False) (slash : ∀ body, c = '<' → cs = '/' :: body → False) :
    next source pos = if decide (c = '<') && (cs.head?.map Char.isAlpha).getD false then startTag source (pos + 1)
      else text pos (c :: cs) := by
  rw [next]
  simp only [stands.cutFrom_bind, opensTag_eq]
  split
  · rename_i body same
    exact (bang _ (cons.inj same).1 (cons.inj same).2).elim
  · rename_i body _ same
    exact (bang _ (cons.inj same).1 (cons.inj same).2).elim
  · rename_i body same
    exact (question _ (cons.inj same).1 (cons.inj same).2).elim
  · rename_i body same
    exact (slash _ (cons.inj same).1 (cons.inj same).2).elim
  · rfl

theorem agrees_next (stands : At source pos (c :: cs)) : Agrees source (next source pos) (next? c cs) := by
  fun_cases next? c cs with
  | case1 body data after found =>
    have whole := splitOnceAt_eq found
    have before := cutTo_append data ("-->".toList ++ after)
    rw [← whole] at before
    have left : body.drop (data.length + 3) = after := by
      rw [whole, ← append_assoc]
      exact drop_left' (by simp)
    have comment : '<' :: '!' :: '-' :: '-' :: body =
        ("<!--".toList ++ data ++ "-->".toList) ++ body.drop (data.length + 3) := by
      rw [left, whole]
      simp
    rw [next]
    simp only [stands.cutFrom_bind, findText?_eq, found, map_some, before]
    refine Yields.pure (stands.past_of comment ?_)
    rw [utf8Len_append, utf8Len_append]
    rfl
  | case2 _ missing =>
    rw [next]
    simp only [stands.cutFrom_bind, findText?_eq, missing, map_none]
    exact .pure stands.past_end
  | case3 | case4 =>
    rw [next]
    simp only [stands.cutFrom_bind]
    exact yields_upToClose_then stands ⟨rfl, rfl⟩ ⟨by decide, by decide⟩ (.comment <| ofList ·)
  | case5 =>
    rw [next]
    simp only [stands.cutFrom_bind]
    exact yields_upToClose_then stands ⟨rfl, rfl⟩ ⟨by decide, by decide⟩ (.endTag <| ofList <| trim ·)
  | case6 _ _ _ bang question slash opens =>
    rw [next_tag_or_text stands bang question slash, if_pos opens]
    rw [Bool.and_eq_true, decide_eq_true_eq] at opens
    obtain ⟨rfl, _⟩ := opens
    exact yields_startTag (stands.past_char rfl)
  | case7 _ _ _ bang question slash opens ascii =>
    rw [next_tag_or_text stands bang question slash, if_neg opens]
    exact yields_text stands ascii
  | case8 _ cs _ bang question slash opens foreign =>
    rw [next_tag_or_text stands bang question slash, if_neg opens]
    exact text_outside_ascii (by simpa using foreign) pos cs

end Standing

end LiveMarkup.Markup.Bytes
