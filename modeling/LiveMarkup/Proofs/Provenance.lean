import LiveMarkup.Proofs.BoundPaths
import LiveMarkup.Proofs.WrittenCode

/-!
Where the passages in the code of a template come from. Each is a piece of the embedded code as it is written, and no piece is
passed on twice, or it is barren, a text in which no block is found: a name, a path, or a literal that the generator has quoted.
-/

namespace LiveMarkup.Codegen
open Blueprint ComputedAttributes Nat
open List hiding flatten
open Template (moved)

section Quiet

variable {cs : List Char} {c : Char}

def isQuiet (c : Char) : Bool := c != '"' && c != '\'' && c != '/' && c != '!'

variable {name : List Char} {spot : Spot}

theorem isClosed_quiet {previous : Option Char} {rest : List Char} (quiet : ∀ d ∈ c :: rest, isQuiet d = true) :
    Site.isClosed previous c rest = true := by
  have first := quiet c mem_cons_self
  unfold Site.isClosed
  rw [Bool.or_eq_true]
  right
  split
  · exact absurd first (by decide)
  · exact absurd first (by decide)
  · exact absurd first (by decide)
  · exact absurd first (by decide)
  · unfold Site.closesRaw
    dsimp only
    split
    · rename_i body found
      have mem : '"' ∈ rest := mem_of_mem_drop (found ▸ mem_cons_self)
      exact absurd (quiet _ (mem_cons_of_mem c mem)) (by decide)
    · rfl

theorem blockHere_quiet (quiet : ∀ d ∈ cs, isQuiet d = true) : Site.blockHere name cs = none := by
  cases begins : Site.blockHere name cs with
  | none => rfl
  | some =>
    obtain ⟨_, _, rfl, -⟩ := Site.opening_of_blockHere begins
    exact absurd (quiet '!' (by simp)) (by decide)

theorem combed_quiet (quiet : ∀ d ∈ spot.rest, isQuiet d = true) : Combed name spot [] := by
  induction size : spot.rest.length using Nat.strong_induction_on generalizing spot with
  | _ size ih =>
    cases there : spot.rest with
    | nil => exact .done there
    | cons c rest =>
      refine .step there (.inr (.inr (blockHere_quiet quiet))) (isClosed_quiet (there ▸ quiet)) (ih _ ?_ ?_ rfl)
      · have pos := Site.advance_pos spot.previous c rest
        rw [Spot.rest_skip, length_drop, ← size, there, length_cons]
        omega
      · intro d mem
        rw [Spot.rest_skip] at mem
        exact quiet d (mem_of_mem_drop mem)

theorem mem_moved {n : Nat} (mem : c ∈ moved n cs) : c ∈ cs ∨ c = ' ' := by
  induction cs with
  | nil => cases mem
  | cons d _ ih =>
    rw [Expression.Lexer.moved_cons, mem_append] at mem
    rcases mem with here | later
    · split at here
      · rename_i feed
        exact (mem_cons.mp here).imp (fun same => by simp [same, feed]) eq_of_mem_replicate
      · exact .inl (by simp [mem_singleton.mp here])
    · exact (ih later).imp_left (mem_cons_of_mem d)

def Barren (text : String) : Prop := ∀ name, Site.Plain name → ∀ n, Crosses name (moved n text.toList) []

theorem barren_quiet {text : String} (quiet : ∀ c ∈ text.toList, isQuiet c = true) : Barren text := by
  intro name plain n
  refine .of_combed (combed_quiet fun c mem => ?_) plain
  exact (mem_moved mem).elim (quiet c) fun blank => blank ▸ rfl

theorem isQuiet_of_part {p : Char → Bool} (loud : ['"', '\'', '/', '!'].all (!p ·) = true) (part : p c = true) :
    isQuiet c = true := by
  have apart (d : Char) (mark : d ∈ ['"', '\'', '/', '!']) : c ≠ d := by
    rintro rfl
    have none := all_eq_true.mp loud c mark
    rw [part] at none
    cases none
  simp [isQuiet, apart '"' (by decide), apart '\'' (by decide), apart '/' (by decide), apart '!' (by decide)]

theorem barren_path {path : String} (parts : ∀ c ∈ path.toList, isPathPart c = true) : Barren path :=
  barren_quiet fun c mem => isQuiet_of_part (by decide) (parts c mem)

theorem barren_name {name : String} (named : ∀ c ∈ name.toList, Template.Parser.isNamePart c = true) : Barren name :=
  barren_quiet fun c mem => isQuiet_of_part (by decide) (named c mem)

theorem mem_of_mem_splitAt {mark : Char} {piece : List Char} (mem : piece ∈ Text.splitAt mark cs) (member : c ∈ piece) :
    c ∈ cs := by
  induction cs generalizing piece with
  | nil =>
    obtain rfl : piece = [] := by simpa [Text.splitAt] using mem
    exact member
  | cons d _ ih =>
    rw [Text.splitAt] at mem
    split at mem
    · rcases mem_cons.mp mem with rfl | mem
      · cases member
      · exact mem_cons_of_mem d (ih mem member)
    · split at mem
      · obtain rfl := mem_singleton.mp mem
        exact mem_singleton.mp member ▸ mem_cons_self
      · rename_i first pieces found
        rcases mem_cons.mp mem with rfl | mem
        · exact mem_cons.mpr ((mem_cons.mp member).imp_right (ih (found ▸ mem_cons_self)))
        · exact mem_cons_of_mem d (ih (found ▸ mem_cons_of_mem first mem) member)

theorem barren_componentPath {tag : String} (named : Template.IsName tag) : Barren (componentPath tag) := by
  refine barren_quiet fun c mem => ?_
  rcases mem_intercalate mem with apart | ⟨piece, member, letter⟩
  · obtain rfl : c = ':' := by simpa using apart
    decide
  · obtain ⟨_, found, rfl⟩ := mem_map.mp member
    rw [String.toList_ofList] at letter
    exact isQuiet_of_part (by decide) (named.2 c (mem_of_mem_splitAt found letter))

end Quiet

section Quoting

variable {digits : List Char} {c : Char} {n : Nat}

theorem mem_toDigitsCore {base fuel : Nat} (mem : c ∈ toDigitsCore base fuel n digits) :
    (∃ d, c = digitChar d) ∨ c ∈ digits := by
  induction fuel generalizing n digits with
  | zero => exact .inr mem
  | succ _ ih =>
    rw [toDigitsCore] at mem
    split at mem
    · exact (mem_cons.mp mem).imp_left fun same => ⟨_, same⟩
    · rcases ih mem with found | behind
      · exact .inl found
      · exact (mem_cons.mp behind).imp_left fun same => ⟨_, same⟩

theorem plain_digitChar (d : Nat) : digitChar d ≠ '"' ∧ Nat.digitChar d ≠ '\\' ∧ Nat.digitChar d ≠ '\n' := by
  by_cases small : d < 16
  · have each : ∀ d < 16, Nat.digitChar d ≠ '"' ∧ digitChar d ≠ '\\' ∧ digitChar d ≠ '\n' := by decide
    exact each d small
  · have star : digitChar d = '*' := by
      unfold digitChar
      repeat rw [if_neg (by omega)]
    rw [star]
    decide

theorem quoteChar_cases (c : Char) : (∃ d, Text.quoteChar c = ['\\', d] ∧ d ≠ '\n') ∨ Text.quoteChar c = Text.codePoint c ∨
    Text.quoteChar c = [c] ∧ c ≠ '"' ∧ c ≠ '\\' ∧ c ≠ '\n' := by
  unfold Text.quoteChar
  split
  case h_7 null tab carriage feed quote backslash =>
    split
    · exact .inr (.inl rfl)
    · exact .inr (.inr ⟨rfl, quote, backslash, feed⟩)
  all_goals exact .inl ⟨_, rfl, by decide⟩

theorem stringBody_digits {body : List Char} (plain : ∀ c ∈ digits, ∃ d, c = digitChar d)
    (rest : Template.IsStringBody body) : Template.IsStringBody (digits ++ body) := by
  induction digits with
  | nil => exact rest
  | cons c _ ih =>
    obtain ⟨d, rfl⟩ := plain c mem_cons_self
    obtain ⟨quote, backslash, -⟩ := plain_digitChar d
    exact .plain quote backslash (ih fun e mem => plain e (mem_cons_of_mem _ mem))

theorem digits_hexDigits (mem : c ∈ Text.hexDigits n) : ∃ d, c = digitChar d :=
  (mem_toDigitsCore mem).resolve_right (not_mem_nil)

theorem stringBody_quoted (cs : List Char) : Template.IsStringBody (cs.flatMap Text.quoteChar) := by
  induction cs with
  | nil => exact .nil
  | cons c cs ih =>
    rw [flatMap_cons]
    obtain ⟨d, same, -⟩ | same | ⟨same, quote, backslash, -⟩ := quoteChar_cases c
    · exact same ▸ .escape d ih
    · have inner : Template.IsStringBody (Text.hexDigits c.toNat ++ '\x7d' :: cs.flatMap Text.quoteChar) :=
        stringBody_digits (fun _ => digits_hexDigits) (.plain (by decide) (by decide) ih)
      have whole : Template.IsStringBody ('\\' :: 'u' :: '\x7b' :: (Text.hexDigits c.toNat ++ '\x7d' :: cs.flatMap Text.quoteChar)) :=
        .escape 'u' (.plain (by decide) (by decide) inner)
      simpa [same, Text.codePoint] using whole
    · exact same ▸ .plain quote backslash ih

theorem not_newline_quoted (cs : List Char) : '\n' ∉ cs.flatMap Text.quoteChar := by
  intro mem
  obtain ⟨c, -, letter⟩ := mem_flatMap.mp mem
  obtain ⟨d, same, other⟩ | same | ⟨same, -, -, other⟩ := quoteChar_cases c
  · rw [same] at letter
    simp at letter
    exact other letter.symm
  · rw [same, Text.codePoint, mem_append, mem_append] at letter
    rcases letter with (front | digit) | back
    · exact absurd front (by decide)
    · obtain ⟨d, same⟩ := digits_hexDigits digit
      exact (plain_digitChar d).2.2 same.symm
    · exact absurd back (by decide)
  · rw [same] at letter
    exact other (mem_singleton.mp letter).symm

theorem barren_quoted (text : String) : Barren (Text.quoted text) := by
  intro name plain n
  have letters : (Text.quoted text).toList = '"' :: (text.toList.flatMap Text.quoteChar ++ ['"']) := by
    rw [Text.quoted, String.toList_ofList]
    rfl
  have flat : '\n' ∉ '"' :: (text.toList.flatMap Text.quoteChar ++ ['"']) := by
    simpa using not_newline_quoted text.toList
  rw [letters, Expression.Lexer.moved_line n flat]
  refine (CrossesOn.of_string ?_).crosses
  rw [Template.Code.stringLength?_body (stringBody_quoted text.toList) [], length_append]
  rfl

end Quoting
section Drawing

open List

variable {codes more : List (List Char)} {p q : List Passage} {passage : Passage} {code : String} {given : Value}
variable {value : Option Template.AttributeValue} {span : Template.Span}

def ComesFrom (passage : Passage) (pieces : List (List Char)) : Prop :=
  pieces = [] ∧ Barren passage.text ∨ pieces = [passage.text.toList]

def Drawn (codes : List (List Char)) (passages : List Passage) : Prop := ∃ used, Stem ComesFrom passages used ∧ used <+~ codes

theorem drawn_nil : Drawn codes [] := ⟨[], stem_nil, nil_subperm⟩

theorem drawn_barren (barren : Barren passage.text) : Drawn codes [passage] :=
  ⟨[], stem_singleton (.inl ⟨rfl, barren⟩), nil_subperm⟩

theorem drawn_code (passage : Passage) : Drawn [passage.text.toList] [passage] := ⟨_, stem_singleton (.inr rfl), .refl _⟩

theorem Drawn.append (one : Drawn codes p) (two : Drawn more q) : Drawn (codes ++ more) (p ++ q) := by
  obtain ⟨used, first, mem⟩ := one
  obtain ⟨others, second, within⟩ := two
  exact ⟨used ++ others, first.append second, mem.append within⟩

theorem Drawn.move (drawn : Drawn codes p) : Drawn codes (p.map Passage.move) := by
  obtain ⟨used, stem, mem⟩ := drawn
  exact ⟨used, Stem.of_move stem, mem⟩

theorem forall₂_sublist {α β : Type} {R : α → β → Prop} {few all : List α} {each : List β} (related : Forall₂ R all each)
    (kept : few <+ all) : ∃ some, Forall₂ R few some ∧ some <+ each := by
  induction kept generalizing each with
  | slnil => exact ⟨[], .nil, nil_sublist each⟩
  | cons _ _ ih =>
    cases related with | cons _ rest =>
    obtain ⟨some, holds, kept⟩ := ih rest
    exact ⟨some, holds, kept.cons _⟩
  | cons_cons _ _ ih =>
    cases related with | cons first rest =>
    obtain ⟨_, holds, kept⟩ := ih rest
    exact ⟨_, .cons first holds, kept.cons_cons _⟩

theorem Drawn.fewer (drawn : Drawn codes p) (few : q <+~ p) : Drawn codes q := by
  obtain ⟨_, ⟨_, related, order⟩, mem⟩ := drawn
  obtain ⟨kept, same, sublist⟩ := few
  obtain ⟨some, holds, fewer⟩ := forall₂_sublist related sublist
  have stem : Stem ComesFrom kept some.flatten := ⟨some, holds, .refl _⟩
  exact ⟨_, stem.perm same, (fewer.flatten.subperm.trans order.symm.subperm).trans mem⟩

theorem Drawn.mem (drawn : Drawn codes p) (member : passage ∈ p) : Barren passage.text ∨ passage.text.toList ∈ codes := by
  obtain ⟨_, ⟨each, related, order⟩, mem⟩ := drawn
  have found : Barren passage.text ∨ passage.text.toList ∈ each.flatten := by
    clear order mem
    induction related with
    | nil => cases member
    | cons first _ ih =>
      rw [flatten_cons]
      rcases mem_cons.mp member with rfl | later
      · rcases first with ⟨-, barren⟩ | rfl
        · exact .inl barren
        · exact .inr (mem_append_left _ mem_cons_self)
      · exact (ih later).imp_right (mem_append_right _)
  exact found.imp_right fun there => mem.subset (order.mem_iff.mpr there)

theorem drawn_written (moved closure : Bool) : Drawn [code.toList] [⟨code, closure, moved⟩] := drawn_code ⟨code, closure, moved⟩

theorem drawn_valuePassage (looked : analyze? code = some given) : Drawn [code.toList] [valuePassage given] := by
  have same := code_of_analyze? looked
  unfold valuePassage
  split
  · split
    · rename_i path bound
      exact drawn_barren (barren_path (parts_bound looked bound))
    · exact same ▸ drawn_written false true
  · exact same ▸ drawn_written false false

def valueCode : Option Template.AttributeValue → List (List Char)
  | some (.expression code) => [code.toList]
  | _ => []

theorem drawn_attributeValue (made : attributeValue value span = .ok given) :
    Drawn (valueCode value) [valuePassage given] ∧ Drawn (valueCode value) [⟨given.code, false, false⟩] := by
  match value with
  | none =>
    obtain rfl := Except.ok.inj made
    have all : "true".toList.all isQuiet = true := by decide
    have barren : Barren "true" := barren_quiet (all_eq_true.mp all)
    exact ⟨drawn_barren barren, drawn_barren barren⟩
  | some (.literal text) =>
    obtain rfl := Except.ok.inj made
    exact ⟨drawn_barren (barren_quoted text), drawn_barren (barren_quoted text)⟩
  | some (.expression code) =>
    have looked := analyze_eq_ok made
    exact ⟨drawn_valuePassage looked, code_of_analyze? looked ▸ drawn_written false false⟩

def attributeCode (written : Template.Attribute) : List (List Char) := written.code?.toList.map String.toList

theorem attributeCode_named (name : String) (value : Option Template.AttributeValue) (span : Template.Span) :
    attributeCode (.named name value span) = valueCode value := by
  rcases value with _ | _ | _ <;> rfl

variable {written : Template.Attribute} {entry : Attribute}

def servedPassages : Attribute → List Passage
  | .value .property _ _ _ => []
  | .value _ _ given _ => if given.dynamic then [⟨given.code, false, false⟩] else []
  | .spread code _ => [⟨code, false, false⟩]
  | _ => []

theorem drawn_propertyPassages (built : componentAttribute written = .ok entry) :
    Drawn (attributeCode written) (propertyPassages entry) := by
  cases written with
  | spread =>
    obtain rfl := Except.ok.inj built
    exact drawn_written false false
  | named =>
    obtain ⟨_, looked, rest⟩ := Template.bind_eq_ok built
    obtain rfl := Except.ok.inj rest
    rw [attributeCode_named]
    exact (drawn_attributeValue looked).1

structure DrawnEntry (codes : List (List Char)) (entry : Attribute) : Prop where
  client : Drawn codes (bindingPassages entry)
  server : Drawn codes (servedPassages entry)

theorem drawnEntry_value (kind : AttributeKind) (name : String) (made : attributeValue value span = .ok given) :
    DrawnEntry (valueCode value) (.value kind name given span) := by
  obtain ⟨passed, plain⟩ := drawn_attributeValue made
  constructor
  · rw [bindingPassages]
    split
    · exact drawn_nil
    · split
      · exact passed
      · exact plain
  · cases kind with
    | property => exact drawn_nil
    | _ =>
      rw [servedPassages.eq_def]
      dsimp only
      split
      · exact plain
      · exact drawn_nil

theorem drawnEntry_elementAttribute (named : written.Named) (built : elementAttribute written = .ok entry) :
    DrawnEntry (attributeCode written) entry := by
  cases classifiedAs_of_elementAttribute built with
  | spread => exact ⟨drawn_written false false, drawn_written false false⟩
  | reference => exact ⟨drawn_written false false, drawn_nil⟩
  | value _ _ _ looked =>
    rw [attributeCode_named]
    exact drawnEntry_value _ _ looked
  | @event _ _ _ _ handler _ _ looked =>
    have looked := analyzeHandler_eq_ok looked
    refine ⟨?_, drawn_nil⟩
    rw [bindingPassages]
    cases bound : handler.bound with
    | some => exact drawn_barren (barren_path (parts_handler looked bound))
    | none =>
      obtain ⟨_, -, rfl⟩ := Option.map_eq_some_iff.mp looked
      exact drawn_written false false
  | @directive name value =>
    have front : Drawn [] [⟨(splitName name).2, false, false⟩] :=
      drawn_barren (barren_name fun c mem => named.2 c (splitName_letters rfl c mem))
    rw [attributeCode_named]
    refine ⟨front.append ?_, drawn_nil⟩
    rcases value with _ | text | code
    · exact drawn_nil
    · exact drawn_barren (barren_quoted text)
    · exact drawn_written false false

theorem drawn_attributes {attrs : List Template.Attribute} {entries : List Attribute} {passages : Attribute → List Passage}
    {build : Template.Attribute → Except Template.CompileError Attribute}
    (each : ∀ written ∈ attrs, ∀ entry, build written = .ok entry → Drawn (attributeCode written) (passages entry))
    (mapped : attrs.mapM build = .ok entries) : Drawn (attrs.flatMap attributeCode) (entries.flatMap passages) := by
  induction attrs generalizing entries with
  | nil =>
    obtain rfl := Except.ok.inj mapped
    exact drawn_nil
  | cons written _ ih =>
    rw [mapM_cons] at mapped
    obtain ⟨first, here, mapped⟩ := Template.bind_eq_ok mapped
    obtain ⟨_, later, mapped⟩ := Template.bind_eq_ok mapped
    obtain rfl := Except.ok.inj mapped
    rw [flatMap_cons, flatMap_cons]
    exact (each written mem_cons_self first here).append (ih (fun other mem => each other (mem_cons_of_mem _ mem)) later)

end Drawing

section Tags

open List
variable {α : Type}

def ComputedAttribute.isNamed (name : String) : ComputedAttribute → Bool
  | .whole n _ => n == name
  | .spread _ => false

def ComputedAttribute.passage : ComputedAttribute → Passage
  | .whole _ code => ⟨code, false, false⟩
  | .spread code => ⟨code, false, false⟩

theorem filter_append_subperm {f g : α → Bool} {items : List α} (apart : ∀ a ∈ items, g a = true → f a = false) :
    items.filter f ++ items.filter g <+~ items := by
  have same : items.filter g = (items.filter (!f ·)).filter g := by
    rw [filter_filter]
    refine filter_congr fun a mem => ?_
    cases known : g a with
    | false => rfl
    | true => simp [apart a mem known]
  rw [same]
  exact ((filter_sublist).append_left _).subperm.trans (filter_append_perm f items).subperm

theorem lastWhole_sublist (name : String) (computed : List ComputedAttribute) :
    (lastWhole name computed).toList.map (fun code => (⟨code, false, false⟩ : Passage)) <+
      (computed.filter (·.isNamed name)).map ComputedAttribute.passage := by
  have among (computed : List ComputedAttribute) (last : Option String) (code : String)
      (found : computed.foldl (fun last entry =>
        match entry with
        | .whole n code => if n = name then some code else last
        | .spread _ => last) last = some code) : last = some code ∨ .whole name code ∈ computed := by
    induction computed generalizing last with
    | nil => exact .inl found
    | cons entry _ ih =>
      rcases ih _ found with here | later
      · cases entry with
        | spread => exact .inl here
        | whole =>
          dsimp only at here
          split at here
          · rename_i same
            obtain rfl := Option.some.inj here
            exact .inr (same ▸ mem_cons_self)
          · exact .inl here
      · exact .inr (mem_cons_of_mem entry later)
  cases last : lastWhole name computed with
  | none => exact nil_sublist _
  | some code =>
    have mem : ComputedAttribute.whole name code ∈ computed := (among computed none code last).resolve_left nofun
    exact singleton_sublist.mpr (mem_map.mpr ⟨_, mem_filter.mpr ⟨mem, by simp [ComputedAttribute.isNamed]⟩, rfl⟩)

def basePassages (name : String) (toggled : Bool) (computed : List ComputedAttribute) : List Passage :=
  if toggled then (lastWhole name computed).toList.map (⟨·, false, false⟩) else []

theorem basePassages_sublist (name : String) (toggled : Bool) (computed : List ComputedAttribute) :
    basePassages name toggled computed <+ (computed.filter fun entry => toggled && entry.isNamed name).map ComputedAttribute.passage := by
  unfold basePassages
  cases toggled with
  | false => exact nil_sublist _
  | true => exact lastWhole_sublist name computed

theorem filterMap_wholePassage (classes styles : Bool) (computed : List ComputedAttribute) :
    computed.filterMap (wholePassage fun name => (name == "class" && classes) || (name == "style" && styles)) =
      (computed.filter fun entry => !((classes && entry.isNamed "class") || (styles && entry.isNamed "style"))).map
        ComputedAttribute.passage := by
  induction computed with
  | nil => rfl
  | cons entry _ ih =>
    cases entry with
    | spread => simp [wholePassage, ComputedAttribute.passage, ComputedAttribute.isNamed, ih]
    | whole name =>
      rw [filterMap_cons, wholePassage, filter_cons, ComputedAttribute.isNamed, ComputedAttribute.isNamed, ih,
        Bool.and_comm classes, Bool.and_comm styles]
      cases (name == "class" && classes) || (name == "style" && styles) <;> rfl

theorem wholes_subperm (classes styles : Bool) (computed : List ComputedAttribute) :
    computed.filterMap (wholePassage fun name => (name == "class" && classes) || (name == "style" && styles)) ++
        basePassages "class" classes computed ++ basePassages "style" styles computed <+~
      computed.map ComputedAttribute.passage := by
  generalize one : (fun entry : ComputedAttribute => classes && entry.isNamed "class") = first
  generalize two : (fun entry : ComputedAttribute => styles && entry.isNamed "style") = second
  have apart (entry : ComputedAttribute) (last : second entry = true) : first entry = false := by
    subst one two
    cases entry with
    | spread => simp [ComputedAttribute.isNamed]
    | whole name =>
      obtain ⟨-, same⟩ : styles = true ∧ name = "style" := by simpa [ComputedAttribute.isNamed] using last
      simp [ComputedAttribute.isNamed, same]
  have bases : computed.filter first ++ computed.filter second <+~ computed.filter fun entry => first entry || second entry := by
    have inner := @filter_append_subperm _ first second (computed.filter fun entry => first entry || second entry)
      fun entry _ => apart entry
    rw [filter_filter, filter_filter] at inner
    have absorb : ∀ a b : Bool, (a && (a || b)) = a ∧ (b && (a || b)) = b := by decide
    simpa only [(absorb _ _).1, (absorb _ _).2] using inner
  have all : computed.filter (fun entry => !(first entry || second entry)) ++ (computed.filter first ++ computed.filter second) <+~
      computed := by
    refine ((Subperm.refl _).append bases).trans ?_
    exact filter_append_subperm fun entry _ given => by simp [given]
  obtain ⟨_, same, sublist⟩ := all
  have whole : (computed.filter (fun entry => !(first entry || second entry)) ++
      (computed.filter first ++ computed.filter second)).map ComputedAttribute.passage <+~
        computed.map ComputedAttribute.passage := ⟨_, same.map _, sublist.map _⟩
  rw [map_append, map_append] at whole
  rw [filterMap_wholePassage, append_assoc]
  subst one two
  refine Subperm.trans (Sublist.subperm ?_) whole
  exact ((basePassages_sublist "class" classes computed).append (basePassages_sublist "style" styles computed)).append_left _

theorem map_filterMap_eq_flatMap {β δ : Type} (f : α → Option β) (g : β → δ) (items : List α) :
    (items.filterMap f).map g = items.flatMap fun a => (f a).toList.map g := by
  rw [filterMap_eq_flatMap_toList, map_flatMap]

theorem computed_perm (attrs : List Attribute) : (ofAttributes attrs).attributes.map ComputedAttribute.passage ++
        ((ofAttributes attrs).classes.map (fun toggle => (⟨toggle.2, false, false⟩ : Passage)) ++
          (ofAttributes attrs).styles.map (fun toggle => (⟨toggle.2, false, false⟩ : Passage))) ~
      attrs.flatMap servedPassages := by
  unfold ofAttributes
  simp only [map_filterMap_eq_flatMap]
  refine ((flatMap_append_perm ..).append_left _).trans ((flatMap_append_perm ..).trans (Perm.of_eq ?_))
  refine congrArg List.flatten (map_congr_left fun entry _ => ?_)
  cases entry with
  | value kind _ given => cases dynamic : given.dynamic <;> cases kind <;> simp [servedPassages, dynamic, ComputedAttribute.passage]
  | _ => rfl

theorem tagPassages_subperm (attrs : List Attribute) : tagPassages attrs <+~ attrs.flatMap servedPassages := by
  let computed := ofAttributes attrs
  have toggles (name : String) (entries : List (String × String)) :
      (if entries.isEmpty then [] else (lastWhole name computed.attributes).toList.map (fun code => (⟨code, false, false⟩ : Passage)) ++
        entries.map (fun toggle => (⟨toggle.2, false, false⟩ : Passage))) =
      basePassages name (!entries.isEmpty) computed.attributes ++ entries.map fun toggle => ⟨toggle.2, false, false⟩ := by
    cases entries <;> rfl
  have whole : tagPassages attrs = computed.attributes.filterMap (wholePassage computed.replaces) ++
      (basePassages "class" (!computed.classes.isEmpty) computed.attributes ++ computed.classes.map fun toggle => ⟨toggle.2, false, false⟩) ++
        (basePassages "style" (!computed.styles.isEmpty) computed.attributes ++
          computed.styles.map fun toggle => ⟨toggle.2, false, false⟩) := by
    rw [← toggles, ← toggles]
    rfl
  have bases := wholes_subperm (!computed.classes.isEmpty) (!computed.styles.isEmpty) computed.attributes
  have all := (bases.append (Subperm.refl (computed.classes.map (fun toggle => (⟨toggle.2, false, false⟩ : Passage)) ++
    computed.styles.map fun toggle => ⟨toggle.2, false, false⟩))).trans (computed_perm attrs).subperm
  rw [whole]
  refine Subperm.trans (Perm.subperm ?_) all
  -- the toggles of classes change places with what the properties of the style apply to
  simp only [append_assoc]
  refine Perm.append_left _ (Perm.append_left _ ?_)
  rw [← append_assoc, ← append_assoc]
  exact perm_append_comm.append_right _

end Tags

section Trees

open Template (Tree)

variable {trees children one two : List Tree} {made more : List Node} {tag : String} {attrs : List Template.Attribute}
  {closed : Bool} {span : Template.Span} {entries : List Attribute}
variable {slot : Slot}

theorem texts_append (one two : List Tree) : Tree.texts (one ++ two) = Tree.texts one ++ Tree.texts two := by
  rw [Tree.texts, Tree.codesAll_append, map_append, Tree.texts, Tree.texts]

theorem texts_flatten (trees : List Tree) : Tree.texts (flatten trees) = Tree.texts trees := by
  refine read_flatten texts_append (fun children span => ?_) trees
  rw [Tree.texts, Tree.texts, Tree.codesAll, Tree.codes, Tree.codesAll, append_nil]

theorem texts_element : Tree.texts [.element tag attrs children closed span] =
    attrs.flatMap attributeCode ++ Tree.texts children := by
  have listed : attrs.flatMap attributeCode = (attrs.filterMap Template.Attribute.code?).map String.toList :=
    (map_filterMap_eq_flatMap _ _ attrs).symm
  simp [Tree.texts, Tree.codesAll, Tree.codes, listed]

theorem texts_expression (code : String) (span : Template.Span) : Tree.texts [.expression code span] = [code.toList] := rfl

/-- The passages of nodes are drawn from the code of their trees, wherever the nodes stand. -/
structure DrawnAll (trees : List Tree) (made : List Node) : Prop where
  roots : Drawn (Tree.texts trees) (rootsPassages made).flatten
  children : Drawn (Tree.texts trees) (childrenPassages made)
  server : Drawn (Tree.texts trees) (serverNodesPassages made)

theorem DrawnAll.append (first : DrawnAll one made) (second : DrawnAll two more) : DrawnAll (one ++ two) (made ++ more) where
  roots := by
    rw [texts_append, rootsPassages_append, flatten_append]
    exact first.roots.append second.roots
  children := by
    rw [texts_append, childrenPassages_append]
    exact first.children.append second.children
  server := by
    rw [texts_append, serverNodesPassages_append]
    exact first.server.append second.server

structure DrawnSlot (children : List Tree) (slot : Slot) : Prop where
  client : Drawn (Tree.texts children) (slotPassages slot)
  server : Drawn (Tree.texts children) (serverSlotPassages slot)

theorem drawnSlot_of_plain (shown : PlainSlot children slot) : DrawnSlot children slot := by
  cases shown with
  | none | text | constant => exact ⟨drawn_nil, drawn_nil⟩
  | @expression _ _ given flat looked =>
    have drawn : Drawn (Tree.texts children) [⟨given.code, false, false⟩] := by
      rw [← texts_flatten, flat, texts_expression, ← code_of_analyze? (analyze_eq_ok looked)]
      exact drawn_written false false
    exact ⟨drawn, drawn⟩

theorem drawnAll_singleton {tree : Tree} {node : Node} (root : Drawn (Tree.texts [tree]) (rootPassages node))
    (child : Drawn (Tree.texts [tree]) (childPassages node)) (server : Drawn (Tree.texts [tree]) (serverNodePassages node)) :
    DrawnAll [tree] [node] where
  roots := by simpa [rootsPassages] using root
  children := by simpa [childrenPassages] using child
  server := by simpa [serverNodesPassages] using server

theorem drawnAll_expression {code : String} {given : Value} (looked : analyze? code = some given) (span : Template.Span) :
    DrawnAll [.expression code span] [.expression given span] := by
  have value := drawn_valuePassage looked
  have plain : Drawn [code.toList] [⟨given.code, false, false⟩] := code_of_analyze? looked ▸ drawn_written false false
  refine drawnAll_singleton ?_ ?_ ?_
  · rw [rootPassages]
    split
    · exact value
    · exact plain
  · rw [childPassages]
    split
    · exact value.move
    · exact drawn_nil
  · rw [serverNodePassages]
    split
    · exact plain
    · exact drawn_nil

theorem drawnAll_component {component : Component} (named : Template.IsName tag) (path : component.path = componentPath tag)
    (slotted : DrawnSlot children slot) (mapped : attrs.mapM componentAttribute = .ok entries) :
    DrawnAll [.element tag attrs children closed span] [.component component entries slot] := by
  have front : Drawn [] [⟨component.path, false, false⟩] := drawn_barren (path ▸ barren_componentPath named)
  have properties := drawn_attributes (fun written _ entry built => drawn_propertyPassages built) mapped
  have given {inner : List Passage} (drawn : Drawn (Tree.texts children) inner) :
      Drawn (Tree.texts [.element tag attrs children closed span])
        (⟨component.path, false, false⟩ :: entries.flatMap propertyPassages ++ inner) := by
    rw [texts_element]
    exact (front.append properties).append drawn
  refine drawnAll_singleton ?_ ?_ ?_
  · rw [rootPassages]
    exact given slotted.client
  · rw [childPassages]
    exact (given slotted.client).move
  · rw [serverNodePassages]
    exact given slotted.server

theorem drawnAll_element {element : Element} (named : ∀ written ∈ attrs, written.Named) {inner : List Node}
    (nested : DrawnAll children inner) (mapped : attrs.mapM elementAttribute = .ok entries) :
    DrawnAll [.element tag attrs children closed span] [.element element entries inner] := by
  have bound : Drawn (attrs.flatMap attributeCode) (entries.flatMap bindingPassages) :=
    drawn_attributes (fun written mem entry built => (drawnEntry_elementAttribute (named written mem) built).client) mapped
  have printed : Drawn (attrs.flatMap attributeCode) (entries.flatMap servedPassages) :=
    drawn_attributes (fun written mem entry built => (drawnEntry_elementAttribute (named written mem) built).server) mapped
  refine drawnAll_singleton ?_ ?_ ?_ <;> rw [texts_element]
  · exact bound.append nested.children
  · exact bound.append nested.children
  · exact (printed.fewer (tagPassages_subperm entries)).append nested.server

theorem drawnAll_nodes {inSvg : Bool} (built : NodesOf inSvg trees made) (named : Tree.NamedAll trees) :
    DrawnAll trees made := by
  induction built with
  | nil => exact ⟨drawn_nil, drawn_nil, drawn_nil⟩
  | cons _ _ first others => exact (first ⟨named.1, trivial⟩).append (others named.2)
  | text => exact drawnAll_singleton drawn_nil drawn_nil drawn_nil
  | expression looked => exact drawnAll_expression (analyze_eq_ok looked) _
  | @fragment _ children span _ _ inner =>
    have inner := inner named.1
    have same : Tree.texts [.fragment children span] = Tree.texts children := by simp [Tree.texts, Tree.codesAll, Tree.codes]
    exact ⟨same ▸ inner.roots, same ▸ inner.children, same ▸ inner.server⟩
  | element _ _ _ _ mapped _ inner => exact drawnAll_element named.1.2.1 (inner named.1.2.2) mapped
  | component _ shown mapped => exact drawnAll_component named.1.1 rfl (drawnSlot_of_plain shown) mapped
  | wrapper _ below listed mapped inner =>
    have inner := inner named.1.2.2
    refine drawnAll_component named.1.1 rfl ⟨?_, inner.server⟩ mapped
    rw [slotPassages, viewPassages_eq_flatten (below.length_eq_one listed)]
    exact inner.roots

theorem drawn_passages {roots : List Tree} {blueprint : Blueprint} (named : Tree.NamedAll roots)
    (built : build roots = .ok blueprint) (target : Target) : Drawn (Tree.texts roots) (passages target blueprint) := by
  obtain ⟨made, single⟩ := nodesOf_build built
  have all := drawnAll_nodes made named
  cases target with
  | client =>
    rw [passages, viewPassages_eq_flatten single]
    exact all.roots
  | server => exact all.server

end Trees

end LiveMarkup.Codegen
