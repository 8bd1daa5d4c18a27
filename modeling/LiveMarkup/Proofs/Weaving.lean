import LiveMarkup.Proofs.Combing
import LiveMarkup.Proofs.Printing

/-!
Code in which passages of a template stand between tokens of the generator's own. The tokens around them stay the same
whatever the passages say, and the search for blocks finds none but those of the passages.
-/

namespace LiveMarkup.Codegen
open Expression Expression.Lexer List
open Template (moved)

abbrev Wording := String → String

/-- A piece of a template that is written into the code. -/
structure Passage where
  text : String
  /-- Whether the generator makes it the body of a closure. -/
  closure : Bool := false
  /-- Whether its lines are moved. -/
  moved : Bool := false
  deriving DecidableEq, Repr

namespace Passage

variable {wording : Wording} {passage : Passage}

/-- The passage is cut into tokens by itself, and no token is broken where lines are moved. -/
def Fits (wording : Wording) (passage : Passage) : Prop :=
  ∃ tokens, Reads (wording passage.text).toList tokens ∧ (passage.moved = true → ∀ token ∈ tokens, '\n' ∉ token.text)

def tokens (wording : Wording) (passage : Passage) : List Spelled :=
  (if passage.closure then spelling "move || ".toList else []) ++ spelling (wording passage.text).toList

def move (passage : Passage) : Passage := { passage with moved := true }

theorem Fits.reads (fits : passage.Fits wording) :
    Reads (wording passage.text).toList (spelling (wording passage.text).toList) := by
  obtain ⟨_, read, -⟩ := fits
  rwa [read.spelling_eq]

theorem fits_of_move (fits : passage.move.Fits wording) : passage.Fits wording := by
  obtain ⟨tokens, read, whole⟩ := fits
  exact ⟨tokens, read, fun _ => whole rfl⟩

theorem flat_of_move (fits : passage.move.Fits wording) : ∀ token ∈ passage.tokens wording, '\n' ∉ token.text := by
  obtain ⟨tokens, read, whole⟩ := fits
  intro token mem
  rcases mem_append.mp mem with front | behind
  · have own : (spelling "move || ".toList).all (!·.text.contains '\n') = true := by decide
    split at front
    · simpa using all_eq_true.mp own token front
    · cases front
  · rw [show spelling (wording passage.text).toList = tokens from read.spelling_eq] at behind
    exact whole rfl token behind

end Passage

inductive Piece where
  | own (token : Spelled)
  | written (passage : Passage)
  deriving DecidableEq, Repr

namespace Piece

def passage? : Piece → Option Passage
  | .own _ => none
  | .written passage => some passage

def tokens (wording : Wording) : Piece → List Spelled
  | .own token => [token]
  | .written passage => passage.tokens wording

def move : Piece → Piece
  | .own token => .own token
  | .written passage => .written passage.move

end Piece

section Stemming

variable {good : Passage → List Block → Prop} {p q : List Passage} {found more : List Block}

def Stem (good : Passage → List Block → Prop) (passages : List Passage) (found : List Block) : Prop :=
  ∃ each, Forall₂ good passages each ∧ found.Perm each.flatten

theorem stem_nil : Stem good [] [] := ⟨[], .nil, .nil⟩

theorem stem_singleton {passage : Passage} (holds : good passage found) : Stem good [passage] found :=
  ⟨[found], .cons holds .nil, by simp⟩

theorem Stem.append (one : Stem good p found) (two : Stem good q more) : Stem good (p ++ q) (found ++ more) := by
  obtain ⟨each, first, order⟩ := one
  obtain ⟨others, second, again⟩ := two
  exact ⟨each ++ others, rel_append first second, by simpa using order.append again⟩

theorem Stem.perm (stem : Stem good p found) (same : p.Perm q) : Stem good q found := by
  obtain ⟨_, first, order⟩ := stem
  obtain ⟨others, second, again⟩ := perm_comp_forall₂ same.symm first
  exact ⟨others, second, order.trans again.flatten.symm⟩

theorem Stem.of_move (stem : Stem (fun passage => good passage.move) p found) : Stem good (p.map Passage.move) found := by
  obtain ⟨each, first, order⟩ := stem
  exact ⟨each, forall₂_map_left_iff.mpr first, order⟩

end Stemming

section Weaving

variable {R S T : List Char → List Spelled → Prop} {V W U : List Char → List Char → List Block → Prop} {a b text : Wording → String}
  {passages p q : List Passage}
variable {name own : String} {texts : List (Wording → String)}

/-- A text is cut into tokens of the generator's own and those of the passages, each of which stands in it once. What the
passages say does not matter for the others. -/
def SpelledBy (R : List Char → List Spelled → Prop) (text : Wording → String) (passages : List Passage) : Prop :=
  ∃ weave : List Piece, (weave.filterMap Piece.passage?).Perm passages ∧ (∀ token, .own token ∈ weave → '\n' ∉ token.text) ∧
    ∀ wording, (∀ passage ∈ passages, passage.Fits wording) → R (text wording).toList (weave.flatMap (Piece.tokens wording))

/-- If the search finds good blocks in each passage, wherever its lines are moved, then these are the blocks that it finds in
a text, wherever that is moved. -/
def CrossedAs (W : List Char → List Char → List Block → Prop) (text : String) (passages : List Passage) : Prop :=
  ∀ name, Site.Plain name → ∀ good : Passage → List Block → Prop,
    (∀ passage ∈ passages, ∀ m, ∃ found, good passage found ∧ Crosses name (moved m passage.text.toList) found) →
      ∀ n, ∃ found, Stem good passages found ∧ W name (moved n text.toList) found

structure WovenAs (R : List Char → List Spelled → Prop) (W : List Char → List Char → List Block → Prop) (text : Wording → String)
    (passages : List Passage) : Prop where
  spelled : SpelledBy R text passages
  crossed : CrossedAs W (text id) passages

abbrev Woven := WovenAs Reads Crosses

abbrev Leading := WovenAs Leads CrossesOn

theorem WovenAs.perm (woven : WovenAs R W text p) (same : p.Perm q) : WovenAs R W text q := by
  obtain ⟨⟨weave, order, flat, read⟩, crossed⟩ := woven
  refine ⟨⟨weave, order.trans same, flat, fun wording fits => read wording fun passage mem => fits passage (same.mem_iff.mp mem)⟩,
    fun name plain good each n => ?_⟩
  obtain ⟨found, stem, crosses⟩ := crossed name plain good (fun passage mem => each passage (same.mem_iff.mp mem)) n
  exact ⟨found, stem.perm same, crosses⟩

theorem WovenAs.append (one : WovenAs R V a p) (two : WovenAs S W b q)
    (both : ∀ wording tokens more, R (a wording).toList tokens → S (b wording).toList more →
      T ((a wording).toList ++ (b wording).toList) (tokens ++ more))
    (cross : ∀ name n found more, Site.Plain name → V name (moved n (a id).toList) found → W name (moved n (b id).toList) more →
      U name (moved n (a id).toList ++ moved n (b id).toList) (found ++ more)) :
    WovenAs T U (fun wording => a wording ++ b wording) (p ++ q) := by
  constructor
  · obtain ⟨front, one, plain, read⟩ := one.spelled
    obtain ⟨back, two, flat, behind⟩ := two.spelled
    refine ⟨front ++ back, ?_, fun token mem => ?_, fun wording fits => ?_⟩
    · rw [filterMap_append]
      exact one.append two
    · exact (mem_append.mp mem).elim (plain token) (flat token)
    · rw [String.toList_append, flatMap_append]
      exact both wording _ _ (read wording fun passage mem => fits passage (mem_append_left q mem))
        (behind wording fun passage mem => fits passage (mem_append_right p mem))
  · intro name plain good each n
    obtain ⟨found, stem, crosses⟩ := one.crossed name plain good (fun passage mem => each passage (mem_append_left q mem)) n
    obtain ⟨more, others, again⟩ := two.crossed name plain good (fun passage mem => each passage (mem_append_right p mem)) n
    rw [String.toList_append, moved_append]
    exact ⟨found ++ more, stem.append others, cross name n found more plain crosses again⟩

theorem Leading.woven (leading : Leading text p) : Woven text p := by
  obtain ⟨⟨weave, order, flat, read⟩, crossed⟩ := leading
  refine ⟨⟨weave, order, flat, fun wording fits => (read wording fits).reads⟩, fun name plain good each n => ?_⟩
  obtain ⟨found, stem, crosses⟩ := crossed name plain good each n
  exact ⟨found, stem, crosses.crosses⟩

def Stops (text : Wording → String) : Prop := ∀ wording, Shuts (text wording).toList

def isStop (text : String) : Bool :=
  text.toList.head?.any (stops.contains ·) && (text.toList.dropWhile Site.isSpace).head?.any (· != '\x7b')

theorem stops_own (own : String) (stop : isStop own = true) : Stops fun _ => own := by
  intro _
  rw [isStop, Bool.and_eq_true, Option.any_eq_true, Option.any_eq_true] at stop
  obtain ⟨⟨c, head, mem⟩, d, first, plain⟩ := stop
  exact ⟨⟨c, head, by simpa using mem⟩, d, first, by simpa using plain⟩

theorem stops_append {a b : Wording → String} (stop : Stops a) : Stops fun wording => a wording ++ b wording := fun wording => by
  rw [String.toList_append]
  exact (stop wording).append _

theorem Stops.first (stop : Stops text) (wording : Wording) : ∃ c rest, (text wording).toList = c :: rest ∧ c ∈ stops := by
  obtain ⟨c, head, mem⟩ := (stop wording).stops
  obtain ⟨rest, same⟩ := head?_eq_some_iff.mp head
  exact ⟨c, rest, same, mem⟩

theorem Leading.append (one : Leading a p) (two : Leading b q) : Leading (fun wording => a wording ++ b wording) (p ++ q) :=
  WovenAs.append one two (fun _ _ _ => Leads.append) fun _ _ _ _ _ => CrossesOn.append

theorem Leading.then (one : Leading a p) (two : Woven b q) : Woven (fun wording => a wording ++ b wording) (p ++ q) :=
  WovenAs.append one two (fun _ _ _ leads read => leads _ _ read) fun _ _ _ _ _ => CrossesOn.then

theorem Woven.then (one : Woven a p) (stop : Stops b) (two : Leading b q) : Leading (fun wording => a wording ++ b wording) (p ++ q) :=
  WovenAs.append one two
    (fun wording _ _ read leads => by
      obtain ⟨c, rest, same, mem⟩ := stop.first wording
      rw [same] at leads ⊢
      exact read.leads (fun d head => Option.some.inj head ▸ mem) (cons_ne_nil c rest) leads)
    fun _ n _ _ plain crosses on => crosses.then plain ((stop id).moved n) on

theorem Woven.append (one : Woven a p) (stop : Stops b) (two : Woven b q) : Woven (fun wording => a wording ++ b wording) (p ++ q) :=
  WovenAs.append one two
    (fun wording _ _ read behind => by
      obtain ⟨_, _, same, mem⟩ := stop.first wording
      rw [same] at behind ⊢
      exact read.append (fun d head => Option.some.inj head ▸ mem) behind)
    fun _ n _ _ plain crosses more => crosses.append plain ((stop id).moved n) more

theorem crossed_passage (passage : Passage) : CrossedAs Crosses passage.text [passage] := by
  intro name plain good each n
  obtain ⟨found, holds, crosses⟩ := each passage mem_cons_self n
  exact ⟨found, stem_singleton holds, crosses⟩

theorem woven_passage (text : String) : Woven (fun wording => wording text) [⟨text, false, false⟩] :=
  ⟨⟨[.written ⟨text, false, false⟩], .refl _, by simp, fun wording fits => by
    simpa [Piece.tokens, Passage.tokens] using (fits _ (mem_singleton_self _)).reads⟩, crossed_passage ⟨text, false, false⟩⟩

def isOwn (text : String) : Bool :=
  isLead text.toList && (spelling text.toList).all (!·.text.contains '\n') && isMute text.toList

theorem spelled_own {S : List Char → List Spelled → Prop} {tokens : List Spelled} (read : S own.toList tokens)
    (flat : ∀ token ∈ tokens, '\n' ∉ token.text) : SpelledBy S (fun _ => own) [] := by
  refine ⟨tokens.map .own, ?_, fun token mem => flat token (by simpa using mem), fun _ _ => ?_⟩
  · have none : (tokens.map Piece.own).filterMap Piece.passage? = [] := filterMap_eq_nil_iff.mpr fun piece mem => by
      obtain ⟨_, -, rfl⟩ := mem_map.mp mem
      rfl
    rw [none]
  · rw [flatMap_map]
    simpa [Piece.tokens] using read

theorem crossed_own (crosses : ∀ name n, Site.Plain name → W name (moved n own.toList) []) : CrossedAs W own [] :=
  fun name plain _ _ n => ⟨[], stem_nil, crosses name n plain⟩

theorem crossed_mute (mute : isMute own.toList = true) : CrossedAs Crosses own [] :=
  crossed_own fun _ n plain => .of_mute plain (isMute_moved n mute)

theorem leading_own (own : String) (lead : isOwn own = true) : Leading (fun _ => own) [] := by
  rw [isOwn, Bool.and_eq_true, Bool.and_eq_true, all_eq_true] at lead
  obtain ⟨⟨lead, flat⟩, mute⟩ := lead
  refine ⟨spelled_own (leads_of_isLead lead) fun token mem => by simpa using flat token mem, crossed_own fun name n plain => ?_⟩
  refine .of_mute plain (isMute_moved n mute) (last_moved n fun c last => ?_)
  rw [isLead, Option.mem_def.mp last, Bool.and_eq_true] at lead
  exact mem_stops_of_isMark lead.1

theorem woven_word (own : String) (word : (spelling? own.toList).any (·.all (!·.text.contains '\n')) = true)
    (mute : isMute own.toList = true) : Woven (fun _ => own) [] := by
  obtain ⟨_, read, flat⟩ := (Option.any_eq_true ..).mp word
  exact ⟨spelled_own (spelling?_iff.mp read) fun token mem => by simpa using all_eq_true.mp flat token mem, crossed_mute mute⟩

theorem isMute_name {name : List Char} (own : OwnName name) : isMute name = true := by
  obtain ⟨_, rfl, parts⟩ := own
  refine isMute_of_all fun c mem mark => ?_
  rcases mem_cons.mp mem with rfl | mem
  · exact absurd mark (by decide)
  · have none : marks.all (!Text.isIdentifierPart ·) = true := by decide
    have apart := all_eq_true.mp none c mark
    rw [parts c mem] at apart
    cases apart

theorem woven_name_then (own : OwnName name.toList) (behind : String)
    (apart : behind.toList.head?.any Text.isIdentifierPart = false)
    (word : (spelling? behind.toList).any (·.all (!·.text.contains '\n')) = true) (mute : isMute behind.toList = true) :
    Woven (fun _ => name ++ behind) [] := by
  obtain ⟨tokens, read, flat⟩ := (Option.any_eq_true ..).mp word
  have whole : Reads (name ++ behind).toList (⟨name.toList, false⟩ :: tokens) := by
    rw [String.toList_append]
    refine reads_name_append own (fun c head => ?_) (spelling?_iff.mp read)
    rw [head] at apart
    exact apart
  have quiet : isMute (name ++ behind).toList = true := by
    rw [String.toList_append]
    exact isMute_append (isMute_name own) mute
  refine ⟨spelled_own whole fun token mem => ?_, crossed_mute quiet⟩
  rcases mem_cons.mp mem with rfl | mem
  · exact own.flat
  · simpa using all_eq_true.mp flat token mem

theorem Woven.comma (one : Woven a p) (two : Woven b q) : Woven (fun wording => a wording ++ ", " ++ b wording) (p ++ q) := by
  simpa using (one.then (stops_own ", " (by decide)) (leading_own ", " (by decide))).then two

theorem Woven.enclosed (front back : String) (lead : isOwn front = true) (own : isOwn back = true) (stop : isStop back = true)
    (inner : Woven text p) : Leading (fun wording => front ++ text wording ++ back) p := by
  simpa using ((leading_own front lead).then inner).then (stops_own back stop) (leading_own back own)

theorem woven_closure (text : String) : Woven (fun wording => "move || " ++ wording text) [⟨text, true, false⟩] := by
  constructor
  · refine ⟨[.written ⟨text, true, false⟩], .refl _, by simp, fun wording fits => ?_⟩
    have lead : Leads "move || ".toList (spelling "move || ".toList) := leads_of_isLead (by decide)
    rw [String.toList_append]
    simpa [Piece.tokens, Passage.tokens] using lead _ _ (fits _ (mem_singleton_self _)).reads
  · intro name plain good each n
    obtain ⟨found, holds, crosses⟩ := each _ mem_cons_self n
    have ends : ∀ c ∈ "move || ".toList.getLast?, c ∈ stops := fun c last => by
      rw [show "move || ".toList.getLast? = some ' ' from rfl] at last
      obtain rfl := Option.some.inj last
      decide
    have front : CrossesOn name (moved n "move || ".toList) [] := .of_mute plain (isMute_moved n (by decide)) (last_moved n ends)
    rw [String.toList_append, moved_append]
    exact ⟨found, stem_singleton holds, front.then crosses⟩

theorem woven_name (own : OwnName name.toList) : Woven (fun _ => name) [] := by
  refine ⟨spelled_own (reads_name own) fun token mem => ?_, crossed_mute (isMute_name own)⟩
  obtain rfl := mem_singleton.mp mem
  exact own.flat

theorem woven_reference (own : OwnName name.toList) : Woven (fun _ => "&" ++ name) [] := by
  have read : Reads ("&" ++ name).toList [⟨['&'], false⟩, ⟨name.toList, false⟩] := by
    rw [String.toList_append]
    exact reads_reference own
  have mute : isMute ("&" ++ name).toList = true := by
    rw [String.toList_append]
    exact isMute_append (by decide) (isMute_name own)
  refine ⟨spelled_own read fun token mem => ?_, crossed_mute mute⟩
  rw [mem_pair] at mem
  obtain rfl | rfl := mem
  · decide
  · exact own.flat

theorem toList_stringLiteral (s : String) : (stringLiteral s).toList = '"' :: s.toList.flatMap escaped ++ ['"'] := by
  rw [stringLiteral, String.toList_ofList]
  rfl

theorem stringLength?_escaped (s : List Char) :
    Template.Code.stringLength? (s.flatMap escaped ++ ['"']) = some (s.flatMap escaped ++ ['"']).length := by
  have body : Template.IsStringBody (s.flatMap escaped) := by
    induction s with
    | nil => exact .nil
    | cons _ _ ih =>
      rw [flatMap_cons]
      unfold escaped
      split
      case h_6 backslash quote feed back tab => exact .plain quote backslash ih
      all_goals exact .escape _ ih
  rw [Template.Code.stringLength?_body body [], length_append]
  rfl

theorem woven_literal (s : String) : Woven (fun _ => stringLiteral s) [] := by
  have read := reads_escaped s.toList
  have flat := not_newline_escaped s.toList
  rw [← toList_stringLiteral] at read flat
  refine ⟨spelled_own read fun token mem => ?_, crossed_own fun name n _ => ?_⟩
  · obtain rfl := mem_singleton.mp mem
    dsimp only
    exact flat
  · rw [moved_line n flat, toList_stringLiteral]
    exact (CrossesOn.of_string (stringLength?_escaped s.toList)).crosses

theorem leading_join {passages : List (List Passage)}
    (each : Forall₂ Leading texts passages) : Leading (fun wording => String.join (texts.map (· wording))) passages.flatten := by
  induction each with
  | nil => exact leading_own "" (by decide)
  | cons first _ ih => simpa only [map_cons, String.join_cons, flatten_cons] using first.append ih

theorem woven_intercalate {passages : List (List Passage)}
    (each : Forall₂ Woven texts passages) : Woven (fun wording => ", ".intercalate (texts.map (· wording))) passages.flatten := by
  induction each with
  | nil => exact woven_word "" (by decide) (by decide)
  | @cons _ _ texts passages first others ih =>
    cases others with
    | nil => simpa using first
    | @cons next q texts passages =>
      have comma : Woven (fun wording => ", " ++ ", ".intercalate ((next :: texts).map (· wording))) (q :: passages).flatten :=
        (leading_own ", " (by decide)).then ih
      have stop := stops_append (b := fun wording => ", ".intercalate ((next :: texts).map (· wording))) (stops_own ", " (by decide))
      simpa only [map_cons, String.intercalate_cons_cons, flatten_cons, String.append_assoc] using first.append stop comma

theorem Woven.indent (woven : Woven text p) : Woven (fun wording => indent (text wording)) (p.map Passage.move) := by
  obtain ⟨⟨weave, order, flat, read⟩, crossed⟩ := woven
  constructor
  · refine ⟨weave.map Piece.move, ?_, fun token mem => ?_, fun wording fits => ?_⟩
    · rw [filterMap_map]
      have moves : Piece.passage? ∘ Piece.move = fun piece => (Piece.passage? piece).map Passage.move := by
        funext piece
        cases piece <;> rfl
      rw [moves, ← map_filterMap]
      exact order.map _
    · obtain ⟨piece, member, same⟩ := mem_map.mp mem
      cases piece with
      | own other => exact Piece.own.inj same ▸ flat other member
      | written => cases same
    · have fits (passage : Passage) (mem : passage ∈ p) : passage.move.Fits wording := fits _ (mem_map_of_mem mem)
      have same : (weave.map Piece.move).flatMap (Piece.tokens wording) = weave.flatMap (Piece.tokens wording) := by
        rw [flatMap_map]
        congr 1
        funext piece
        cases piece <;> rfl
      rw [same, show (LiveMarkup.Codegen.indent (text wording)).toList = Template.moved 4 (text wording).toList from String.toList_ofList]
      refine (read wording fun passage mem => Passage.fits_of_move (fits passage mem)).moved 4 fun token mem => ?_
      obtain ⟨piece, member, mem⟩ := mem_flatMap.mp mem
      cases piece with
      | own other => exact mem_singleton.mp mem ▸ flat other member
      | written passage =>
        exact Passage.flat_of_move (fits passage (order.mem_iff.mp (mem_filterMap.mpr ⟨_, member, rfl⟩))) token mem
  · intro name plain good each n
    obtain ⟨found, stem, _⟩ := crossed name plain (fun passage => good passage.move)
      (fun passage mem => each passage.move (mem_map_of_mem mem)) (n + 4)
    refine ⟨found, stem.of_move, ?_⟩
    rwa [show (LiveMarkup.Codegen.indent (text id)).toList = moved 4 (text id).toList from String.toList_ofList, moved_moved]

end Weaving
end LiveMarkup.Codegen
