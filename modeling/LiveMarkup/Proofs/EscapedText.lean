import LiveMarkup.Proofs.ByteOffsets

/-!
Escaping and decoding. Whatever place a text is escaped for, decoding gives it back, and what stands beside it is decoded
on its own: the search for the end of a reference does not lead out of an escaped text, as it ends in no open reference.
-/

namespace LiveMarkup.Markup.Entity
open List

section Settled

variable {marks cs rest : List Char} {c : Char}

/-- No reference is open at the end of a text: behind each ampersand there is a semicolon, or more than the name of a
reference may have. -/
def Settled (cs : List Char) : Prop :=
  ∀ before after, cs = before ++ '&' :: after → ';' ∈ after ∨ longestName < after.length

theorem settled_nil : Settled [] := by
  intro before after split
  simp at split

theorem Settled.behind {front : List Char} (settled : Settled (front ++ rest)) : Settled rest := by
  rintro before after rfl
  exact settled (front ++ before) after (append_assoc ..).symm

theorem Settled.tail (settled : Settled (c :: cs)) : Settled cs := by
  have whole : Settled ([c] ++ cs) := settled
  exact whole.behind

theorem Settled.append (first : Settled cs) (second : Settled rest) : Settled (cs ++ rest) := by
  intro before after split
  rcases append_eq_append_iff.mp split with ⟨more, rfl, whole⟩ | ⟨more, rfl, whole⟩
  · exact second more after whole
  · cases more with
    | nil => exact second [] after whole.symm
    | cons _ more =>
      obtain ⟨rfl, rfl⟩ := cons.inj whole
      exact (first before more rfl).imp (mem_append_left rest) fun long =>
        long.trans_le (sublist_append_left more rest).length_le

theorem settled_singleton (plain : c ≠ '&') : Settled [c] := by
  intro before after split
  have mem : '&' ∈ [c] := by simp [split]
  exact absurd (mem_singleton.mp mem).symm plain

theorem settled_reference (special : c ∈ allMarks) : Settled (reference c) := by
  obtain ⟨name, written, plain⟩ : ∃ name, reference c = '&' :: (name ++ [';']) ∧ '&' ∉ name := by
    simp only [allMarks, mem_cons, not_mem_nil, or_false] at special
    rcases special with rfl | rfl | rfl | rfl | rfl
    · exact ⟨"amp".toList, rfl, by decide⟩
    · exact ⟨"lt".toList, rfl, by decide⟩
    · exact ⟨"gt".toList, rfl, by decide⟩
    · exact ⟨"quot".toList, rfl, by decide⟩
    · exact ⟨"#39".toList, rfl, by decide⟩
  intro before after split
  rw [written] at split
  cases before with
  | nil =>
    obtain ⟨-, rfl⟩ := cons.inj split
    exact .inl (by simp)
  | cons =>
    obtain ⟨-, later⟩ := cons.inj split
    have mem : '&' ∈ name ++ [';'] := by simp [later]
    simp [plain] at mem

theorem settled_escape (escaping : Escaping marks) (cs : List Char) : Settled (escape marks cs) := by
  induction cs with
  | nil => exact settled_nil
  | cons c _ ih =>
    rw [escape_cons]
    refine Settled.append ?_ ih
    split
    · rename_i marked
      exact settled_reference (escaping.special c (by simpa using marked))
    · rename_i plain
      refine settled_singleton ?_
      rintro rfl
      exact plain (by simpa using escaping.ampersand)

theorem reference?_append (closed : ';' ∈ cs ∨ longestName < cs.length) (rest : List Char) :
    reference? (cs ++ rest) = (reference? cs).map fun found => (found.1, found.2 ++ rest) := by
  by_cases ends : ';' ∈ cs
  · obtain ⟨name, _, rfl, fresh⟩ := eq_append_cons_of_mem ends
    have apart : ∀ d ∈ name, d ≠ ';' := fun d mem same => fresh (same ▸ mem)
    rw [append_assoc, cons_append, reference?_closed apart, reference?_closed apart]
    split
    · cases named? name <;> rfl
    · rfl
  · have long := closed.resolve_left ends
    have kept : ∀ d ∈ cs, decide (d ≠ ';') = true := fun d mem => decide_eq_true fun same => ends (same ▸ mem)
    have none : reference? cs = .none := by
      rw [reference?, dropWhile_eq_nil_iff.mpr kept]
    have far : ¬ (cs ++ rest.takeWhile (· ≠ ';')).length ≤ longestName := by
      rw [length_append]
      omega
    rw [none, reference?, takeWhile_append_of_pos kept]
    simp only [if_neg far]
    split <;> rfl

theorem decode_append (settled : Settled cs) (rest : List Char) : decode (cs ++ rest) = decode cs ++ decode rest := by
  fun_induction decode cs with
  | case1 => rfl
  | case2 cs _ after found ih =>
    have whole := Bytes.eq_of_reference? found
    have behind : Settled after := by
      have split : '&' :: cs = ('&' :: cs.takeWhile (· ≠ ';') ++ [';']) ++ after := by
        rw [append_assoc, cons_append, singleton_append, ← whole]
      rw [split] at settled
      exact settled.behind
    have onward := reference?_append (settled [] cs rfl) rest
    rw [found] at onward
    rw [cons_append, decode_ampersand onward, ih behind, cons_append]
  | case3 cs missing ih =>
    have onward := reference?_append (settled [] cs rfl) rest
    rw [missing] at onward
    rw [cons_append, Bytes.decode_of_reference?_none onward, ih settled.tail, cons_append]
  | case4 _ _ plain ih =>
    rw [cons_append, decode_cons_of_ne plain, ih settled.tail, cons_append]

end Settled

inductive Place where
  | anywhere
  | content
  | attribute
  deriving Repr, DecidableEq

def Place.marks : Place → List Char
  | .anywhere => allMarks
  | .content => contentMarks
  | .attribute => attributeMarks

def Place.escape : Place → String → String
  | .anywhere => escapeAll
  | .content => escapeContent
  | .attribute => escapeAttribute

theorem Place.escaping : (place : Place) → Escaping place.marks
  | .anywhere => escaping_allMarks
  | .content => escaping_contentMarks
  | .attribute => escaping_attributeMarks

theorem Place.toList_escape (place : Place) (s : String) : (place.escape s).toList = Entity.escape place.marks s.toList := by
  cases place <;> exact String.toList_ofList

theorem Place.settled (place : Place) (s : String) : Settled (place.escape s).toList :=
  place.toList_escape s ▸ settled_escape place.escaping s.toList

theorem Place.decode_escape (place : Place) (s : String) : decode (place.escape s).toList = s.toList := by
  rw [place.toList_escape, Entity.decode_escape place.escaping]

theorem Place.not_mem_escape {place : Place} {mark : Char} (marked : mark ∈ place.marks) (apart : mark ≠ '&') (s : String) :
    mark ∉ (place.escape s).toList :=
  place.toList_escape s ▸ Entity.not_mem_escape place.escaping marked apart s.toList

/-- Texts one after the other, each escaped for its place. -/
def escapedAll (pieces : List (Place × String)) : String := .join (pieces.map fun piece => piece.1.escape piece.2)

theorem decode_escapedAll_append (pieces : List (Place × String)) (rest : List Char) :
    decode ((escapedAll pieces).toList ++ rest) = (String.join (pieces.map Prod.snd)).toList ++ decode rest := by
  induction pieces with
  | nil => simp [escapedAll]
  | cons piece pieces ih =>
    have first : (escapedAll (piece :: pieces)).toList = (piece.1.escape piece.2).toList ++ (escapedAll pieces).toList := by
      simp [escapedAll]
    rw [first, append_assoc, decode_append (piece.1.settled piece.2), piece.1.decode_escape, ih]
    simp

/-- Decoding undoes escaping, for every place and every text, though the text may look like references itself. What is
escaped holds no angle bracket, and no quote where it may stand between quotes; and escaped texts are decoded one by
one, as long as those before have no open reference at their end. -/
theorem decodes_each_escaped_text : (∀ (place : Place) (s : String), decodeText (place.escape s) = s ∧
      Bytes.decoded (place.escape s).toList = .ok s.toList) ∧
    (∀ (place : Place) (s : String), '<' ∉ (place.escape s).toList ∧ '>' ∉ (place.escape s).toList) ∧
    (∀ s : String, '"' ∉ (escapeAll s).toList ∧ '"' ∉ (escapeAttribute s).toList) ∧
    (∀ (pieces : List (Place × String)) (rest : String),
      decodeText (escapedAll pieces ++ rest) = .join (pieces.map Prod.snd) ++ decodeText rest) ∧
    ∀ (before rest : String) (place : Place) (s : String), Settled before.toList →
      decodeText (before ++ place.escape s ++ rest) = decodeText before ++ s ++ decodeText rest := by
  refine ⟨fun place s => ⟨?_, ?_⟩, fun place s => ?_, fun s => ?_, fun pieces rest => ?_, fun before rest place s settled => ?_⟩
  · rw [decodeText, place.decode_escape, String.ofList_toList]
  · rw [Bytes.decoded_eq, place.decode_escape]
  · have marked : '<' ∈ place.marks ∧ '>' ∈ place.marks := by cases place <;> decide
    exact ⟨Place.not_mem_escape marked.1 (by decide) s, Place.not_mem_escape marked.2 (by decide) s⟩
  · have quoted : '"' ∈ Place.anywhere.marks ∧ '"' ∈ Place.attribute.marks := by decide
    exact ⟨Place.not_mem_escape quoted.1 (by decide) s, Place.not_mem_escape quoted.2 (by decide) s⟩
  · rw [← String.toList_inj, decodeText, String.toList_ofList, String.toList_append, decode_escapedAll_append]
    simp [decodeText]
  · rw [← String.toList_inj, decodeText, String.toList_ofList, String.append_assoc, String.toList_append, decode_append settled,
      String.toList_append, decode_append (place.settled s), place.decode_escape]
    simp [decodeText]

-- the texts before are not to end in an open reference: here the semicolon that is escaped ends it
example : decodeText ("&lt" ++ escapeContent ";") = "<" := by cbv

end LiveMarkup.Markup.Entity
