import LiveMarkup.Markup.Reader
import LiveMarkup.Proofs.References

/-!
The pieces of markup are read back from what is written of them: comments, tags, elements of raw text and runs of text.
The characters that are escaped in texts and attributes are a parameter, since markup is written in more than one place.
-/

namespace LiveMarkup.Markup
open Text List Entity Markup.Tree Element

structure ReadableTag (tag : String) : Prop where
  letter : ∃ c cs, tag.toList = c :: cs ∧ c.isAlpha
  readable : ∀ c ∈ tag.toList, Piece.isTagChar c

structure TagName (tag : String) : Prop where
  letter : ∃ c cs, tag.toList = c :: cs ∧ c.isAlpha
  readable : ∀ c ∈ tag.toList, Piece.isTagChar c
  notRaw : Element.isRawText tag = false

theorem TagName.readableTag {tag : String} (name : TagName tag) : ReadableTag tag := ⟨name.letter, name.readable⟩

/-- A name of ordinary elements: such an element is not void and does not begin SVG. -/
structure OrdinaryTag (tag : String) : Prop extends TagName tag where
  notVoid : Element.isVoid tag = false
  notSvg : (tag == "svg") = false

instance decidableLetter (tag : String) : Decidable (∃ c cs, tag.toList = c :: cs ∧ c.isAlpha) :=
  match h : tag.toList with
  | [] => isFalse (by simp)
  | c :: cs => decidable_of_iff (c.isAlpha = true) (by simp)

theorem ordinaryTag_iff (tag : String) : OrdinaryTag tag ↔
    (∃ c cs, tag.toList = c :: cs ∧ c.isAlpha) ∧ tag.toList.all Piece.isTagChar = true ∧
      isRawText tag = false ∧ isVoid tag = false ∧ (tag == "svg") = false := by
  rw [all_eq_true]
  exact ⟨fun ⟨⟨a, b, c⟩, d, e⟩ => ⟨a, b, c, d, e⟩, fun ⟨a, b, c, d, e⟩ => ⟨⟨a, b, c⟩, d, e⟩⟩

instance (tag : String) : Decidable (OrdinaryTag tag) := decidable_of_iff' _ (ordinaryTag_iff tag)

def ReadableNames (attributes : Attributes) : Prop := ∀ entry ∈ attributes, ∀ c ∈ entry.1.toList, Piece.isNameChar c

/-- Names of attributes that can be read, are not empty and differ. -/
structure OrdinaryNames (attributes : Attributes) : Prop where
  readable : ∀ entry ∈ attributes, entry.1.toList ≠ [] ∧ ∀ c ∈ entry.1.toList, Piece.isNameChar c
  once : (attributes.map Prod.fst).Nodup

theorem OrdinaryNames.readableNames {attrs : Attributes} (ordinary : OrdinaryNames attrs) :
    ReadableNames attrs := fun entry mem => (ordinary.readable entry mem).2

def addAttributes (before attributes : Attributes) : Attributes :=
  attributes.foldl (fun added entry => Piece.addAttribute added entry.1 entry.2) before

def Tree.attributeChars (marks : List Char) (entry : String × String) : List Char :=
  ' ' :: entry.1.toList ++ '=' :: '"' :: Entity.escape marks entry.2.toList ++ ['"']

section Scanning
open Piece
variable {attrs : Attributes} {marks cs : List Char} {tag : String} {c : Char} {data : String}

theorem scan_cons {rest : List Char} {piece : Piece} (found : Piece.next? c cs = some (piece, rest)) :
    scan (c :: cs) = (piece :: (scan rest).1, (scan rest).2) := by
  rw [scan]
  split
  · rename_i missing
    simp [missing] at found
  · rename_i other tail here
    obtain ⟨rfl, rfl⟩ := Prod.mk.inj (Option.some.inj (here.symm.trans found))
    rfl

theorem splitOnceAt_append {mark : List Char} (data rest : List Char)
    (fresh : ∀ front back, data = front ++ back → back ≠ [] → mark.isPrefixOf (back ++ (mark ++ rest)) = false) :
    splitOnceAt mark (data ++ (mark ++ rest)) = some (data, rest) := by
  induction data with
  | nil =>
    have whole : mark.isPrefixOf (mark ++ rest) = true := by simp
    cases joined : mark ++ rest with
    | nil =>
      obtain ⟨rfl, rfl⟩ := append_eq_nil_iff.mp joined
      rfl
    | cons =>
      rw [joined] at whole
      simp only [nil_append, splitOnceAt, whole, if_true]
      rw [← joined, drop_left]
  | cons c data ih =>
    have here := fresh [] (c :: data) rfl (by simp)
    have later := ih fun front back split nonempty => fresh (c :: front) back (by rw [split, cons_append]) nonempty
    rw [cons_append] at here ⊢
    simp only [splitOnceAt, here, later]
    rfl

theorem splitOnceAt_opening {first : Char} {tail data : List Char} (apart : first ∉ tail)
    (plain : ¬ first :: tail <:+: data) (rest : List Char) :
    splitOnceAt (first :: tail) (data ++ (first :: tail ++ rest)) = some (data, rest) := by
  apply splitOnceAt_append
  intro front back whole nonempty
  rw [Bool.eq_false_iff]
  intro starts
  obtain starts := isPrefixOf_iff_prefix.mp starts
  rcases Nat.le_total (first :: tail).length back.length with shorter | longer
  · have inner := prefix_of_prefix_length_le starts (prefix_append back _) shorter
    exact plain (inner.isInfix.trans ⟨front, [], by rw [whole, append_nil]⟩)
  · -- the mark would begin with what is left of the data, and its first character would come again behind that
    obtain ⟨more, shape⟩ := prefix_of_prefix_length_le (prefix_append back _) starts longer
    obtain ⟨_, joined⟩ := starts
    rw [← shape, append_assoc, append_right_inj, shape] at joined
    cases back with
    | nil => exact nonempty rfl
    | cons =>
      obtain ⟨-, rfl⟩ := cons.inj shape
      cases more with
      | nil => exact plain (shape ▸ ⟨front, [], by rw [whole]; simp⟩)
      | cons =>
        obtain ⟨rfl, _⟩ := cons.inj joined
        exact apart (by simp)

theorem scan_comment (plain : ¬ "-->".toList <:+: data.toList) (rest : List Char) :
    scan ("<!--".toList ++ data.toList ++ "-->".toList ++ rest) =
      (.comment data :: (scan rest).1, (scan rest).2) := by
  have split : splitOnceAt "-->".toList (data.toList ++ ("-->".toList ++ rest)) = some (data.toList, rest) := by
    apply splitOnceAt_append
    intro front back whole nonempty
    rw [Bool.eq_false_iff]
    intro starts
    obtain ⟨_, joined⟩ := isPrefixOf_iff_prefix.mp starts
    have mark : "-->".toList = ['-', '-', '>'] := rfl
    rw [mark] at joined
    -- The comment is closed too early only by a mark that lies in it as a whole.
    match back, nonempty with
    | [_], _ => simp at joined
    | [_, _], _ => simp at joined
    | a :: b :: c :: back, _ =>
      simp only [cons_append, nil_append, cons.injEq] at joined
      obtain ⟨rfl, rfl, rfl, _⟩ := joined
      exact plain ⟨front, back, by rw [whole, mark]; simp⟩
  have found : Piece.next? '<' ('!' :: '-' :: '-' :: (data.toList ++ ("-->".toList ++ rest))) =
      some (.comment data, rest) := by
    simp only [Piece.next?, split, String.ofList_toList]
    rw [← drop_drop, drop_left]
    rfl
  have opening : "<!--".toList = ['<', '!', '-', '-'] := rfl
  rw [opening, append_assoc, append_assoc]
  exact scan_cons found

theorem takeWhile_append_of_stop {p : Char → Bool} (all : ∀ c ∈ cs, p c = true) (rest : List Char)
    (stop : ∀ c ∈ rest.head?, p c = false) : (cs ++ rest).takeWhile p = cs ∧ (cs ++ rest).dropWhile p = rest := by
  rw [takeWhile_append_of_pos all, dropWhile_append_of_pos all]
  cases rest with
  | nil => simp
  | cons c => simp [stop c rfl]

theorem not_blank_of_isTagChar (ok : isTagChar c) : isBlank c = false := by
  simp only [isTagChar, Bool.and_eq_true, Bool.not_eq_true'] at ok
  exact ok.1.1

theorem trim_of_not_blank (solid : ∀ c ∈ cs, isBlank c = false) : trim cs = cs := by
  have front : trimStart cs = cs := by
    cases cs with
    | nil => rfl
    | cons c => simp [trimStart, solid c (by simp)]
  have back : trimEnd cs = cs := by
    unfold trimEnd
    cases reversed : cs.reverse with
    | nil => simpa using reversed.symm
    | cons c =>
      have mem : c ∈ cs := by
        rw [← mem_reverse, reversed]
        simp
      rw [dropWhile_cons_of_neg (by simp [solid c mem]), ← reversed, reverse_reverse]
  rw [trim, front, back]

theorem ne_close_of_readableTag (name : ReadableTag tag) : ∀ c ∈ tag.toList, decide (c ≠ '>') = true := by
  intro c mem
  have ok := name.readable c mem
  simp only [isTagChar, Bool.and_eq_true, bne_iff_ne] at ok
  exact decide_eq_true ok.2

theorem scan_endTag (name : ReadableTag tag) (rest : List Char) :
    scan ('<' :: '/' :: tag.toList ++ '>' :: rest) = (.endTag tag :: (scan rest).1, (scan rest).2) := by
  obtain ⟨before, after⟩ := takeWhile_append_of_stop (ne_close_of_readableTag name) ('>' :: rest) (by simp)
  have solid := trim_of_not_blank fun c mem => not_blank_of_isTagChar (name.readable c mem)
  have found : Piece.next? '<' ('/' :: (tag.toList ++ '>' :: rest)) = some (.endTag tag, rest) := by
    simp only [Piece.next?, upToClose, before, after, solid, String.ofList_toList, drop_succ_cons, drop_zero]
  exact scan_cons found

theorem next?_text (apart : c ≠ '<') (cs : List Char) : Piece.next? c cs = if isAscii c then
      some (.text (String.ofList (decode (c :: cs.takeWhile (· ≠ '<')))), cs.dropWhile (· ≠ '<')) else none := by
  simp only [Piece.next?]
  split
  all_goals first | exact absurd rfl apart | skip
  simp [apart]

theorem scan_text (escaping : Entity.Escaping marks) (opening : '<' ∈ marks) (whole : data.toList = c :: cs)
    (rest : List Char) (closed : ∀ c ∈ rest.head?, c = '<') :
    (isAscii c = true →
      scan (escape marks data.toList ++ rest) = (.text data :: (scan rest).1, (scan rest).2)) ∧
      (isAscii c = false → (scan (escape marks data.toList ++ rest)).2 = false) := by
  obtain ⟨first, tail, escaped, ascii⟩ := escape_head escaping c cs
  have none := not_mem_escape escaping opening (by decide) (c :: cs)
  rw [escaped] at none
  obtain ⟨apart, none⟩ := not_or.mp fun mem => none (mem_cons.mpr mem)
  have found := next?_text (fun same => apart same.symm) (tail ++ rest)
  rw [whole, escaped, cons_append]
  refine ⟨fun plain => ?_, fun outside => ?_⟩
  · have all : ∀ d ∈ tail, decide (d ≠ '<') = true := fun d mem => decide_eq_true fun same => none (same ▸ mem)
    obtain ⟨before, after⟩ := takeWhile_append_of_stop all rest (by simpa using closed)
    have decoded : decode (first :: tail) = data.toList := by
      rw [← escaped, decode_escape escaping, whole]
    rw [ascii, if_pos plain, before, after, decoded, String.ofList_toList] at found
    exact scan_cons found
  · rw [ascii, outside] at found
    rw [scan]
    split
    · rfl
    · rename_i here
      simp [found] at here

theorem attributeValue_quoted (escaping : Entity.Escaping marks) (quote : '"' ∈ marks) (value : String) (rest : List Char) :
    attributeValue ('=' :: '"' :: (escape marks value.toList ++ '"' :: rest)) = (value.toList, rest) := by
  have none := Entity.not_mem_escape escaping quote (by decide) value.toList
  have all : ∀ c ∈ Entity.escape marks value.toList, decide (c ≠ '"') = true :=
    fun c mem => decide_eq_true fun same => none (same ▸ mem)
  obtain ⟨before, after⟩ := takeWhile_append_of_stop all ('"' :: rest) (by simp)
  have equals (cs : List Char) : trimStart ('=' :: cs) = '=' :: cs := rfl
  have quotes (cs : List Char) : trimStart ('"' :: cs) = '"' :: cs := rfl
  simp only [attributeValue, equals, quotes, before, after, decode_escape escaping]
  rfl

theorem isNameChar_iff : isNameChar c ↔ isBlank c = false ∧ c ≠ '=' ∧ c ≠ '>' ∧ c ≠ '/' := by
  simp [isNameChar, and_assoc]

theorem isNameChar_of_isAlphanum (letter : c.isAlphanum) : isNameChar c := by
  have range : 48 ≤ c.toNat ∧ c.toNat ≤ 57 ∨ 65 ≤ c.toNat ∧ c.toNat ≤ 122 := by
    have between {low high : Char} (mem : (decide (c.val ≥ low.val) && decide (c.val ≤ high.val)) = true) :
        low.toNat ≤ c.toNat ∧ c.toNat ≤ high.toNat := by
      obtain ⟨least, most⟩ := Bool.and_eq_true_iff.mp mem
      exact ⟨of_decide_eq_true least, of_decide_eq_true most⟩
    rcases Bool.or_eq_true_iff.mp letter with alpha | digit
    · rcases Bool.or_eq_true_iff.mp alpha with upper | lower
      · have : 65 ≤ c.toNat ∧ c.toNat ≤ 90 := of_decide_eq_true upper
        omega
      · have : 97 ≤ c.toNat ∧ c.toNat ≤ 122 := between lower
        omega
    · have : 48 ≤ c.toNat ∧ c.toNat ≤ 57 := between digit
      omega
  have solid : isBlank c = false := by
    simp only [isBlank, Bool.or_eq_false_iff, Bool.and_eq_false_iff, decide_eq_false_iff_not, beq_eq_false_iff_ne]
    omega
  have apart : ∀ d : Char, d.toNat = 61 ∨ d.toNat = 62 ∨ d.toNat = 47 → c ≠ d := by
    rintro _ _ rfl
    omega
  exact isNameChar_iff.mpr ⟨solid, apart '=' (.inl rfl), apart '>' (.inr (.inl rfl)), apart '/' (.inr (.inr rfl))⟩

theorem isTagChar_of_isNameChar (ok : isNameChar c) : isTagChar c := by
  obtain ⟨solid, _, close, slash⟩ := isNameChar_iff.mp ok
  simp [isTagChar, solid, close, slash]

theorem scanAttributes_attribute (escaping : Entity.Escaping marks) (quote : '"' ∈ marks) (before : Attributes)
    {entry : String × String} (readable : ∀ c ∈ entry.1.toList, isNameChar c) (rest : List Char) :
    scanAttributes before (Tree.attributeChars marks entry ++ rest) =
      scanAttributes (addAttribute before entry.1 entry.2) rest := by
  obtain ⟨name, value⟩ := entry
  dsimp only at readable ⊢
  obtain ⟨named, valued⟩ := takeWhile_append_of_stop readable
    ('=' :: '"' :: (escape marks value.toList ++ '"' :: rest)) (by simp [isNameChar])
  have shape : Tree.attributeChars marks (name, value) ++ rest =
      ' ' :: (name.toList ++ '=' :: '"' :: (escape marks value.toList ++ '"' :: rest)) := by
    simp [Tree.attributeChars]
  -- a name may be empty, and then the equals sign comes first
  have first : ∃ c cs, name.toList ++ '=' :: '"' :: (escape marks value.toList ++ '"' :: rest) = c :: cs ∧
      isBlank c = false ∧ c ≠ '>' ∧ c ≠ '/' := by
    cases whole : name.toList with
    | nil => exact ⟨'=', _, rfl, by decide, by decide, by decide⟩
    | cons c =>
      obtain ⟨solid, _, close, slash⟩ := isNameChar_iff.mp (readable c (by simp [whole]))
      exact ⟨c, _, rfl, solid, close, slash⟩
  obtain ⟨c, cs, joined, solid, close, slash⟩ := first
  have trimmed : trimStart (attributeChars marks (name, value) ++ rest) = c :: cs := by
    rw [shape, joined, trimStart, dropWhile_cons_of_pos (by decide), dropWhile_cons_of_neg (by simp [solid])]
  rw [joined] at named valued
  rw [scanAttributes]
  split
  · rename_i missing
    simp [trimmed] at missing
  · rename_i first tail found
    obtain ⟨rfl, rfl⟩ := cons.inj (found.symm.trans trimmed)
    rw [dif_neg close, dif_neg slash]
    simp only [named, valued, attributeValue_quoted escaping quote, String.ofList_toList]

theorem scanAttributes_written (escaping : Entity.Escaping marks) (quote : '"' ∈ marks) (before : Attributes)
    (readable : ReadableNames attrs) (rest : List Char) :
    scanAttributes before (attrs.flatMap (attributeChars marks) ++ '>' :: rest) =
      (addAttributes before attrs, false, rest) := by
  induction attrs generalizing before with
  | nil =>
    rw [scanAttributes]
    split
    · rename_i missing
      cases missing
    · rename_i c tail found
      obtain ⟨rfl, rfl⟩ := cons.inj (found : '>' :: rest = c :: tail)
      simp [addAttributes]
  | cons entry _ ih =>
    rw [flatMap_cons, append_assoc,
      scanAttributes_attribute escaping quote before (readable entry (by simp)),
      ih _ fun other mem => readable other (mem_cons_of_mem entry mem)]
    rfl

theorem addAttribute_new {before : Attributes} {name : String} (value : String) (nonempty : name.toList ≠ [])
    (fresh : name ∉ before.map Prod.fst) : addAttribute before name value = before ++ [(name, value)] := by
  have given : name.isEmpty = false := by
    rw [Bool.eq_false_iff, ne_eq, String.isEmpty_iff]
    rintro rfl
    exact nonempty rfl
  have new : before.any (·.1 == name) = false := by
    rw [any_eq_false]
    intro entry mem same
    exact fresh (mem_map.mpr ⟨entry, mem, by simpa using same⟩)
  simp [addAttribute, given, new]

theorem addAttributes_ordinary (before : Attributes) (ordinary : OrdinaryNames (before ++ attrs)) :
    addAttributes before attrs = before ++ attrs := by
  induction attrs generalizing before with
  | nil => simp [addAttributes]
  | cons entry _ ih =>
    have fresh : entry.1 ∉ before.map Prod.fst := by
      have once := ordinary.once
      rw [map_append, nodup_append] at once
      exact fun mem => once.2.2 _ mem _ (by simp) rfl
    have step := ih (before ++ [entry]) (by simpa using ordinary)
    rw [addAttributes, foldl_cons, addAttribute_new entry.2 (ordinary.readable entry (by simp)).1 fresh]
    rw [addAttributes] at step
    simpa using step

theorem next?_letter (letter : c.isAlpha) (cs : List Char) : Piece.next? '<' (c :: cs) = some (scanStartTag (c :: cs)) := by
  have apart : c ≠ '!' ∧ c ≠ '?' ∧ c ≠ '/' := by
    refine ⟨?_, ?_, ?_⟩ <;> rintro rfl <;> exact absurd letter (by decide)
  unfold Piece.next?
  split
  · rename_i here
    exact absurd (cons.inj here).1 apart.1
  · rename_i here
    exact absurd (cons.inj here).1 apart.1
  · rename_i here
    exact absurd (cons.inj here).1 apart.2.1
  · rename_i here
    exact absurd (cons.inj here).1 apart.2.2
  · simp [letter]

theorem next?_startTag (escaping : Entity.Escaping marks) (quote : '"' ∈ marks) (name : ReadableTag tag)
    (names : ReadableNames attrs) (rest : List Char) :
    Piece.next? '<' (tag.toList ++ (attrs.flatMap (attributeChars marks) ++ '>' :: rest)) =
      some (if isRawText tag then
          (.rawElement tag (addAttributes [] attrs) (String.ofList (rawBody tag rest).1), (rawBody tag rest).2)
        else (.startTag tag (addAttributes [] attrs) false, rest)) := by
  obtain ⟨_, _, whole, letter⟩ := name.letter
  have stop : ∀ d ∈ (attrs.flatMap (attributeChars marks) ++ '>' :: rest).head?, isTagChar d = false := by
    cases attrs with
    | nil => simp [isTagChar]
    | cons =>
      intro d first
      obtain rfl : ' ' = d := by simpa [attributeChars] using first
      decide
  obtain ⟨named, after⟩ := takeWhile_append_of_stop name.readable _ stop
  have mem := scanAttributes_written escaping quote [] names rest
  have scanned : Piece.next? '<' (tag.toList ++ (attrs.flatMap (attributeChars marks) ++ '>' :: rest)) =
      some (scanStartTag (tag.toList ++ (attrs.flatMap (attributeChars marks) ++ '>' :: rest))) := by
    rw [whole, cons_append]
    exact next?_letter letter _
  rw [scanned, scanStartTag]
  simp only [named, after, mem, String.ofList_toList, Bool.not_false, Bool.true_and]

theorem scan_startTag (escaping : Entity.Escaping marks) (quote : '"' ∈ marks) (name : ReadableTag tag)
    (notRaw : isRawText tag = false) (names : ReadableNames attrs) (rest : List Char) :
    scan ('<' :: tag.toList ++ attrs.flatMap (attributeChars marks) ++ '>' :: rest) =
      (.startTag tag (addAttributes [] attrs) false :: (scan rest).1, (scan rest).2) := by
  have found := next?_startTag escaping quote name names rest
  rw [notRaw] at found
  simp only [cons_append, append_assoc]
  exact scan_cons found

theorem scan_rawElement (escaping : Entity.Escaping marks) (quote : '"' ∈ marks) (name : ReadableTag tag)
    (raw : Element.isRawText tag = true) (names : ReadableNames attributes) {body : String}
    (plain : ¬ ("</" ++ tag).toList <:+: body.toList) (rest : List Char) :
    scan ('<' :: tag.toList ++ attributes.flatMap (Tree.attributeChars marks) ++
        '>' :: (body.toList ++ '<' :: '/' :: tag.toList ++ '>' :: rest)) =
      (.rawElement tag (addAttributes [] attributes) body :: (scan rest).1, (scan rest).2) := by
  have opening : ("</" ++ tag).toList = '<' :: '/' :: tag.toList := by simp
  have apart : '<' ∉ '/' :: tag.toList := by
    simp only [isRawText, Bool.or_eq_true, beq_iff_eq] at raw
    rcases raw with rfl | rfl <;> decide
  rw [opening] at plain
  have closing := splitOnceAt_opening apart plain ('>' :: rest)
  have mem : ∀ c ∈ '<' :: '/' :: tag.toList, decide (c ≠ '>') = true :=
    forall_mem_cons.mpr ⟨rfl, forall_mem_cons.mpr ⟨rfl, ne_close_of_readableTag name⟩⟩
  have ended : rawBody tag (body.toList ++ ('<' :: '/' :: tag.toList ++ '>' :: rest)) = (body.toList, rest) := by
    have after := (takeWhile_append_of_stop mem ('>' :: rest) (by simp)).2
    simp only [rawBody, opening, closing, drop_left, upToClose, after]
    simp
  have found := next?_startTag escaping quote name names (body.toList ++ ('<' :: '/' :: tag.toList ++ '>' :: rest))
  rw [raw, if_pos rfl, ended, String.ofList_toList] at found
  simp only [cons_append, append_assoc] at found ⊢
  exact scan_cons found

end Scanning

end LiveMarkup.Markup
