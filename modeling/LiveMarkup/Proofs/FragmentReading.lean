import LiveMarkup.Proofs.ByteOffsets
import LiveMarkup.Proofs.Rendering

/-!
Markup is read into a fragment to its last byte, or not at all. Reading by byte offsets always ends; the only cut that fails
is the one in front of a run of text that begins outside ASCII, and if the scan comes to none, what is read is a fragment
without fragments in it and without attributes said twice.
-/

namespace LiveMarkup.Markup.Bytes
open Text String

section Scanning

/-- The offsets that a scan stands at between pieces. -/
inductive Reached (source : List Char) : Nat → Prop where
  | start : Reached source 0
  | next {pos pos' : Nat} {piece : Piece} (before : Reached source pos) (here : pos < String.utf8Len source)
      (read : next source pos = .ok (piece, pos')) : Reached source pos'

def beginsMarkup : List Char → Bool
  | '<' :: c :: _ => c == '!' || c == '?' || c == '/' || c.isAlpha
  | _ => false

/-- A scan comes to a run of text whose first character is outside ASCII. -/
def Blocked (source : List Char) : Prop :=
  ∃ pos c cs, Reached source pos ∧ At source pos (c :: cs) ∧ beginsMarkup (c :: cs) = false ∧ isAscii c = false

variable {source : List Char} {pos : Nat} {rest : List Char} {c : Char}

theorem ne_opening (foreign : isAscii c = false) : c ≠ '<' := fun same => by simp [same, isAscii] at foreign

theorem beginsMarkup_of_foreign (foreign : isAscii c = false) (cs : List Char) : beginsMarkup (c :: cs) = false := by
  unfold beginsMarkup
  split
  · rename_i same
    exact absurd (List.cons.inj same).1 (ne_opening foreign)
  · rfl

theorem next?_none_iff {cs : List Char} : Piece.next? c cs = none ↔ isAscii c = false := by
  constructor
  · intro none
    unfold Piece.next? at none
    split at none
    · split at none <;> cases none
    · cases none
    · cases none
    · cases none
    · split at none
      · cases none
      · split at none
        · cases none
        · rename_i foreign
          exact Bool.eq_false_iff.mpr foreign
  · intro foreign
    rw [next?_text (ne_opening foreign), foreign]
    rfl

theorem scan_foreign (foreign : isAscii c = false) (cs : List Char) : Piece.scan (c :: cs) = ([], false) := by
  rw [Piece.scan]
  split
  · rfl
  · rename_i found
    simp [next?_none_iff.mpr foreign] at found

theorem At.lt (stands : At source pos rest) (some : rest ≠ []) : pos < utf8Len source := by
  have solid : utf8Len rest ≠ 0 := fun none => some (utf8Len_eq_zero.mp none)
  have := stands.total
  omega

theorem scan_cases {rounds : Nat} (stands : At source pos rest) (reached : Reached source pos)
    (enough : rest.length < rounds) :
    ((Piece.scan rest).2 = true ∧ scan source rounds pos = .ok ((Piece.scan rest).1, utf8Len source)) ∨
      ((Piece.scan rest).2 = false ∧ scan source rounds pos = .error .badCut ∧ Blocked source) := by
  induction rounds generalizing pos rest with
  | zero => omega
  | succ _ ih =>
    rw [scan]
    obtain _ | ⟨c, cs⟩ := rest
    · have last := stands.total
      rw [utf8Len_nil, Nat.add_zero] at last
      left
      rw [if_neg (by omega), Piece.scan, last]
      exact ⟨rfl, rfl⟩
    · have here := stands.lt (by simp)
      rw [if_pos here]
      have agrees := agrees_next stands
      cases found : Piece.next? c cs with
      | none =>
        rw [found] at agrees
        have foreign := next?_none_iff.mp found
        right
        rw [show next source pos = .error .badCut from agrees]
        refine ⟨?_, rfl, pos, c, cs, reached, stands, beginsMarkup_of_foreign foreign cs, foreign⟩
        rw [scan_foreign foreign]
      | some read =>
        obtain ⟨_, _⟩ := read
        rw [found] at agrees
        obtain ⟨_, read, stands'⟩ := agrees
        rw [scan_cons found, read]
        have shorter := Piece.next?_shorter found
        rw [List.length_cons] at enough
        rcases ih stands' (reached.next here read) (by omega) with ⟨whole, scanned⟩ | ⟨partial_, stopped, blocked⟩
        · refine .inl ⟨whole, ?_⟩
          simp only [bind, Except.bind, scanned]
          rfl
        · refine .inr ⟨partial_, ?_, blocked⟩
          simp only [bind, Except.bind, stopped]

theorem Reached.complete (reached : Reached source pos) :
    ∃ rest, At source pos rest ∧ (Piece.scan rest).2 = (Piece.scan source).2 := by
  induction reached with
  | start => exact ⟨source, at_start source, rfl⟩
  | @next _ _ _ _ _ read ih =>
    obtain ⟨rest, stands, same⟩ := ih
    obtain _ | ⟨c, cs⟩ := rest
    · have last := stands.total
      rw [utf8Len_nil] at last
      omega
    · have agrees := agrees_next stands
      cases found : Piece.next? c cs with
      | none =>
        rw [found] at agrees
        cases read.symm.trans agrees
      | some one =>
        obtain ⟨_, left⟩ := one
        rw [found] at agrees
        obtain ⟨_, other_read, behind⟩ := agrees
        obtain ⟨rfl, rfl⟩ := Prod.mk.inj (Except.ok.inj (read.symm.trans other_read))
        refine ⟨left, behind, ?_⟩
        rw [← same, scan_cons found]

theorem blocked_iff : Blocked source ↔ (Piece.scan source).2 = false := by
  constructor
  · rintro ⟨_, _, _, reached, stands, _, foreign⟩
    obtain ⟨_, too, same⟩ := reached.complete
    rw [← same, too.unique stands, scan_foreign foreign]
  · intro partial_
    rcases scan_cases (at_start source) .start (Nat.lt_succ_self _) with ⟨whole, _⟩ | ⟨_, _, blocked⟩
    · rw [whole] at partial_
      cases partial_
    · exact blocked

theorem read_eq (markup : String) :
    read markup = if (Markup.read markup).complete then .ok ((Markup.read markup).forest, markup.utf8ByteSize)
      else .error .badCut := by
  have enough : markup.toList.length < markup.utf8ByteSize + 1 := by
    have := length_le_utf8Len markup.toList
    rw [utf8Len_toList] at this
    omega
  rw [read, Markup.read]
  rcases scan_cases (at_start markup.toList) .start enough with ⟨whole, scanned⟩ | ⟨partial_, stopped, _⟩
  · rw [scanned, utf8Len_toList]
    simp only [whole, if_true]
    rfl
  · rw [stopped]
    simp only [partial_]
    rfl

/-- Letters outside ASCII are read in values of attributes and behind the first letter of a text. -/
example : read "<p title=é>aé&#233;" = .ok ([.element "p" false [("title", "é")] [.text "aéé"]], 21) := by rfl

example : read "<p>é</p>" = .error .badCut := by rfl

end Scanning

end LiveMarkup.Markup.Bytes

namespace LiveMarkup.Document
open Markup (Tree OrdinaryNames)

variable {η π : Type} {doc : Document η π} {n : NodeId}

def Inside (doc : Document η π) (n m : NodeId) : Prop := Relation.TransGen (fun a b => b ∈ doc.children a) n m

/-- A fragment with no fragment in it, whose elements have no attribute twice. -/
structure PlainFragment (doc : Document η π) (n : NodeId) : Prop where
  fragment : doc.kind n = .fragment
  plain : ∀ m, doc.Inside n m → doc.isFragment m = false
  once : ∀ m, doc.Inside n m → ∀ node, doc.node? m = some node → (node.attributes.map Prod.fst).Nodup

def Written (doc : Document η π) (n : NodeId) : Prop :=
  ∃ tree svg, doc.Carries tree n ∧ tree.Expressible OrdinaryNames svg

theorem written_of_carriesAll {trees : List Tree} {nodes : List NodeId} {svg : Bool} (carries : doc.CarriesAll trees nodes)
    (expressible : Tree.ExpressibleAll OrdinaryNames svg trees) : ∀ n ∈ nodes, doc.Written n := by
  induction trees generalizing nodes with
  | nil =>
    obtain rfl : nodes = [] := carries
    simp
  | cons tree _ ih =>
    obtain ⟨_, _, rfl, first, others⟩ := carries
    exact List.forall_mem_cons.mpr ⟨⟨tree, svg, first, expressible.1⟩, ih others expressible.2⟩

theorem Written.child {m : NodeId} (written : doc.Written n) (child : m ∈ doc.children n) : doc.Written m := by
  obtain ⟨tree, _, carries, expressible⟩ := written
  match tree with
  | .text _ | .comment _ =>
    obtain ⟨_, found, _, _, _, empty⟩ := carries
    simp [children_of_node? found, empty] at child
  | .element _ _ _ _ =>
    obtain ⟨_, found, _, _, _, below⟩ := carries
    rw [children_of_node? found] at child
    exact written_of_carriesAll below expressible.below m child

theorem Written.once (written : doc.Written n) {node : Node η π} (found : doc.node? n = some node) :
    (node.attributes.map Prod.fst).Nodup := by
  obtain ⟨tree, _, carries, expressible⟩ := written
  match tree with
  | .text _ | .comment _ =>
    obtain ⟨_, here, _, _, none, _⟩ := carries
    obtain rfl := Option.some.inj (here.symm.trans found)
    simp [none]
  | .element _ _ _ _ =>
    obtain ⟨_, here, _, _, names, _⟩ := carries
    obtain rfl := Option.some.inj (here.symm.trans found)
    rw [names]
    exact expressible.2.2.1.once

theorem CarriesForest.plainFragment {forest : List Tree} (carries : doc.CarriesForest forest n)
    (expressible : Tree.ExpressibleAll OrdinaryNames false forest) : doc.PlainFragment n := by
  obtain ⟨_, found, kind, _, _, below⟩ := carries
  have written : ∀ m, doc.Inside n m → doc.Written m := fun m mem => by
    induction mem with
    | single child =>
      rw [children_of_node? found] at child
      exact written_of_carriesAll below expressible _ child
    | tail _ child ih => exact ih.child child
  refine ⟨by rw [kind_of_node? found, kind], fun m mem => ?_, fun m mem _ here => (written m mem).once here⟩
  obtain ⟨_, _, carries, _⟩ := written m mem
  exact carries.isFragment

end LiveMarkup.Document

namespace LiveMarkup.Live
open Document Markup Reactive

variable {γ τ : Type}

/-- Reading markup by offsets always ends. It fails, at a cut, exactly if the scan comes to a run of text that begins outside
ASCII. Of everything else it reads the last byte, and what is made of it is a plain fragment. -/
theorem fragment_read_unless_blocked (self : Runner (Procedure γ) (World γ τ) Datum) (state : State (Procedure γ) (World γ τ) Datum)
    (markup : String) :
    (Bytes.Blocked markup.toList → Bytes.read markup = .error .badCut ∧
      ∃ state', (readFragment markup).run self state = .error .unreadable state') ∧
    (¬ Bytes.Blocked markup.toList → ∃ forest n state', Bytes.read markup = .ok (forest, markup.utf8ByteSize) ∧
      (readFragment markup).run self state = .ok n state' ∧ state'.outside.document.CarriesForest forest n ∧
      state'.outside.document.PlainFragment n) := by
  have blocked_iff : Bytes.Blocked markup.toList ↔ (read markup).complete = false := Bytes.blocked_iff
  refine ⟨fun blocked => ?_, fun free => ?_⟩
  · have partial_ := blocked_iff.mp blocked
    rw [Bytes.read_eq, readFragment_eq, partial_]
    exact ⟨rfl, _, rfl⟩
  · have whole : (read markup).complete = true := by simpa using mt blocked_iff.mpr free
    rw [Bytes.read_eq, readFragment_eq, whole]
    have carries := carriesForest_ofTrees state.outside.document (read markup).forest
    exact ⟨_, _, _, rfl, rfl, carries, carries.plainFragment (expressible_read markup)⟩

end LiveMarkup.Live
