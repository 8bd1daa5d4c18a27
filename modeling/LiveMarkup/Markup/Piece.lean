import LiveMarkup.Markup.Tree

/-!
The pieces that markup is read in: comments, end tags, start tags, elements of raw text and runs of
text. Every character sequence is cut into pieces, with one exception: a run of text cannot begin with
a character outside ASCII, and reading stops in front of it.
-/

namespace LiveMarkup.Markup
open Text

inductive Piece where
  | comment (data : String)
  | endTag (name : String)
  | startTag (tag : String) (attributes : Attributes) (selfClosing : Bool)
  | rawElement (tag : String) (attributes : Attributes) (body : String)
  | text (data : String)
  deriving Repr

namespace Piece

theorem length_dropWhile_le (p : Char → Bool) (cs : List Char) : (cs.dropWhile p).length ≤ cs.length :=
  (List.dropWhile_sublist p).length_le

/-- What stands before the first `>` and behind it; without one, everything stands before it. -/
def upToClose (cs : List Char) : List Char × List Char :=
  (cs.takeWhile (· ≠ '>'), (cs.dropWhile (· ≠ '>')).drop 1)

theorem upToClose_length (cs : List Char) : (upToClose cs).2.length ≤ cs.length := by
  have := length_dropWhile_le (· ≠ '>') cs
  simp only [upToClose, List.length_drop]
  omega

/-- The value of an attribute behind its name: quoted, bare or, without an equals sign, empty. -/
def attributeValue (cs : List Char) : List Char × List Char :=
  match trimStart cs with
  | '=' :: rest =>
    match trimStart rest with
    | '"' :: body => (Entity.decode (body.takeWhile (· ≠ '"')), (body.dropWhile (· ≠ '"')).drop 1)
    | '\'' :: body => (Entity.decode (body.takeWhile (· ≠ '\'')), (body.dropWhile (· ≠ '\'')).drop 1)
    | body =>
      (Entity.decode (body.takeWhile fun c => !isBlank c && c != '>'),
        body.dropWhile fun c => !isBlank c && c != '>')
  | rest => ([], rest)

theorem attributeValue_length (cs : List Char) : (attributeValue cs).2.length ≤ cs.length ∧
      ((trimStart cs).head? = some '=' → (attributeValue cs).2.length < cs.length) := by
  have blanks := length_dropWhile_le isBlank cs
  unfold attributeValue
  split
  · rename_i rest skipped
    have inner := length_dropWhile_le isBlank rest
    simp only [trimStart] at skipped inner
    rw [skipped] at blanks
    simp only [List.length_cons] at blanks
    split
    · rename_i body quoted
      have tail := length_dropWhile_le (· ≠ '"') body
      simp only [trimStart] at quoted
      rw [quoted] at inner
      simp only [List.length_cons, List.length_drop] at inner ⊢
      omega
    · rename_i body quoted
      have tail := length_dropWhile_le (· ≠ '\'') body
      simp only [trimStart] at quoted
      rw [quoted] at inner
      simp only [List.length_cons, List.length_drop] at inner ⊢
      omega
    · have tail := length_dropWhile_le (fun c => !isBlank c && c != '>') (trimStart rest)
      simp only [trimStart] at tail ⊢
      omega
  · rename_i other
    refine ⟨blanks, fun starts => ?_⟩
    exfalso
    cases skipped : trimStart cs with
    | nil => simp [skipped] at starts
    | cons c rest =>
      simp only [skipped, List.head?_cons, Option.some.injEq] at starts
      exact other rest (by rw [skipped, starts])

def isNameChar (c : Char) : Bool := !isBlank c && c != '=' && c != '>' && c != '/'

/-- Adds an attribute unless it has no name or the name is taken: the first of two wins. -/
def addAttribute (attributes : Attributes) (name value : String) : Attributes :=
  if name.isEmpty || attributes.any (·.1 == name) then attributes else attributes ++ [(name, value)]

theorem trimStart_cons_length {cs rest : List Char} {c : Char} (h : trimStart cs = c :: rest) :
    rest.length < cs.length := by
  have := length_dropWhile_le isBlank cs
  simp only [trimStart] at h
  rw [h] at this
  simp only [List.length_cons] at this
  omega

theorem trimStart_cons_not_blank {cs rest : List Char} {c : Char} (h : trimStart cs = c :: rest) :
    isBlank c = false := by
  have head := List.head?_dropWhile_not isBlank cs
  simp only [trimStart] at h
  rw [h] at head
  simpa using head

theorem attributeValue_shorter {c : Char} (rest : List Char) (blank : isBlank c = false)
    (close : c ≠ '>') (slash : c ≠ '/') :
    (attributeValue ((c :: rest).dropWhile isNameChar)).2.length ≤ rest.length := by
  have parts := attributeValue_length ((c :: rest).dropWhile isNameChar)
  by_cases named : isNameChar c
  · have tail : (c :: rest).dropWhile isNameChar = rest.dropWhile isNameChar := by simp [named]
    have := length_dropWhile_le isNameChar rest
    rw [tail] at parts ⊢
    omega
  · have tail : (c :: rest).dropWhile isNameChar = c :: rest := by simp [named]
    have equals : c = '=' := by
      simp only [isNameChar, blank, Bool.not_false, Bool.true_and, Bool.and_eq_true, bne_iff_ne, ne_eq,
        close, slash, not_false_eq_true, and_true, Decidable.not_not] at named
      exact named
    rw [tail] at parts ⊢
    have strict := parts.2 (by simp [trimStart, equals, isBlank])
    simp only [List.length_cons] at strict
    omega

/-- The inside of a start tag behind the name: its attributes, whether `/>` ended it, and the rest. -/
def scanAttributes (attributes : Attributes) (cs : List Char) : Attributes × Bool × List Char :=
  match _found : trimStart cs with
  | [] => (attributes, false, [])
  | c :: rest =>
    if _close : c = '>' then (attributes, false, rest)
    else if _slash : c = '/' then
      if rest.head? = some '>' then (attributes, true, rest.drop 1) else scanAttributes attributes rest
    else
      let name := (c :: rest).takeWhile isNameChar
      let value := attributeValue ((c :: rest).dropWhile isNameChar)
      scanAttributes (addAttribute attributes (String.ofList name) (String.ofList value.1)) value.2
termination_by cs.length
decreasing_by
  · exact trimStart_cons_length _found
  · have := trimStart_cons_length _found
    have := attributeValue_shorter rest (trimStart_cons_not_blank _found) _close _slash
    omega

theorem scanAttributes_length (attributes : Attributes) (cs : List Char) :
    (scanAttributes attributes cs).2.2.length ≤ cs.length := by
  fun_induction scanAttributes attributes cs with
  | case1 => simp
  | case2 attributes cs rest found =>
    have := trimStart_cons_length found
    dsimp only
    omega
  | case3 attributes cs rest _ found =>
    have := trimStart_cons_length found
    simp only [List.length_drop]
    omega
  | case4 attributes cs rest _ found _ ih =>
    have := trimStart_cons_length found
    omega
  | case5 attributes cs c rest found close slash name value ih =>
    have := trimStart_cons_length found
    have shorter : value.2.length ≤ rest.length :=
      attributeValue_shorter rest (trimStart_cons_not_blank found) close slash
    omega

def isTagChar (c : Char) : Bool := !isBlank c && c != '/' && c != '>'

/-- The body of an element of raw text, up to its end tag, and the text behind that tag. -/
def rawBody (tag : String) (cs : List Char) : List Char × List Char :=
  match splitOnceAt ("</" ++ tag).toList cs with
  | none => (cs, [])
  | some (body, _) =>
    let tail := cs.drop body.length
    if tail.contains '>' then (body, (upToClose tail).2) else (body, tail)

theorem rawBody_length (tag : String) (cs : List Char) : (rawBody tag cs).2.length ≤ cs.length := by
  unfold rawBody
  split
  · simp
  · rename_i body after _
    have := upToClose_length (cs.drop body.length)
    simp only [List.length_drop] at this
    dsimp only
    split <;> simp only [List.length_drop] <;> omega

def scanStartTag (cs : List Char) : Piece × List Char :=
  let tag := String.ofList (cs.takeWhile isTagChar)
  let (attributes, selfClosing, rest) := scanAttributes [] (cs.dropWhile isTagChar)
  if !selfClosing && Element.isRawText tag then
    let (body, rest) := rawBody tag rest
    (.rawElement tag attributes (String.ofList body), rest)
  else (.startTag tag attributes selfClosing, rest)

theorem scanStartTag_length (cs : List Char) : (scanStartTag cs).2.length ≤ cs.length := by
  have tail := length_dropWhile_le isTagChar cs
  have inside := scanAttributes_length [] (cs.dropWhile isTagChar)
  unfold scanStartTag
  split
  rename_i attributes selfClosing rest scanned
  rw [scanned] at inside
  simp only at inside
  have body := rawBody_length (String.ofList (cs.takeWhile isTagChar)) rest
  dsimp only
  split
  · dsimp only
    omega
  · dsimp only
    omega

/-- The piece that begins with `c`; none when that is a run of text beginning outside ASCII. -/
def next? (c : Char) (cs : List Char) : Option (Piece × List Char) :=
  match c, cs with
  | '<', '!' :: '-' :: '-' :: body =>
    match splitOnceAt "-->".toList body with
    | some (data, _) => some (.comment (String.ofList data), body.drop (data.length + 3))
    | none => some (.comment (String.ofList body), [])
  | '<', '!' :: body => some (.comment (String.ofList (upToClose body).1), (upToClose body).2)
  | '<', '?' :: body => some (.comment (String.ofList (upToClose body).1), (upToClose body).2)
  | '<', '/' :: body => some (.endTag (String.ofList (trim (upToClose body).1)), (upToClose body).2)
  | c, cs =>
    if c = '<' && (cs.head?.map Char.isAlpha).getD false then some (scanStartTag cs)
    else if isAscii c then
      some (.text (String.ofList (Entity.decode (c :: cs.takeWhile (· ≠ '<')))), cs.dropWhile (· ≠ '<'))
    else none

theorem next?_shorter {c : Char} {cs rest : List Char} {piece : Piece} (h : next? c cs = some (piece, rest)) :
    rest.length ≤ cs.length := by
  have closed (c : Char) (body : List Char) : (upToClose body).2.length ≤ (c :: body).length :=
    Nat.le_succ_of_le (upToClose_length body)
  unfold next? at h
  split at h
  · split at h <;> obtain ⟨-, rfl⟩ := Prod.mk.inj (Option.some.inj h)
    · simp only [List.length_drop, List.length_cons]
      omega
    · simp
  · obtain ⟨-, rfl⟩ := Prod.mk.inj (Option.some.inj h)
    exact closed ..
  · obtain ⟨-, rfl⟩ := Prod.mk.inj (Option.some.inj h)
    exact closed ..
  · obtain ⟨-, rfl⟩ := Prod.mk.inj (Option.some.inj h)
    exact closed ..
  · split at h
    · have := scanStartTag_length cs
      rwa [Option.some.inj h] at this
    · obtain ⟨-, same⟩ := Option.ite_none_right_eq_some.mp h
      obtain ⟨-, rfl⟩ := Prod.mk.inj (Option.some.inj same)
      exact length_dropWhile_le _ _

def scan : List Char → List Piece × Bool
  | [] => ([], true)
  | c :: cs =>
    match _found : next? c cs with
    | none => ([], false)
    | some (piece, rest) =>
      let (pieces, complete) := scan rest
      (piece :: pieces, complete)
termination_by cs => cs.length
decreasing_by
  have := next?_shorter _found
  simp only [List.length_cons]
  omega

end Piece
end LiveMarkup.Markup
