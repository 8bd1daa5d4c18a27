import LiveMarkup.Proofs.Attributes
import Mathlib.Data.List.DropRight

/-!
Styles with any declarations. What is written of tidy declarations is read back as it was, and all that is read from a
style is tidy, so that setting one property after the other amounts to changing the declarations.
-/

namespace LiveMarkup.Text
open List Option

variable {c : Char} {cs : List Char} {mark : Char}

theorem trim_subset (cs : List Char) : trim cs ⊆ cs := by
  intro c mem
  have kept : c ∈ (trimStart cs).reverse := dropWhile_subset _ (mem_reverse.mp mem)
  exact dropWhile_subset _ (mem_reverse.mp kept)

theorem not_mem_trimmed {s : String} (absent : c ∉ s.toList) : c ∉ (trimmed s).toList := by
  rw [trimmed, String.toList_ofList]
  exact fun mem => absent (trim_subset _ mem)

theorem trimEnd_cons (solid : isBlank c = false) (cs : List Char) : trimEnd (c :: cs) = c :: trimEnd cs := by
  unfold trimEnd
  rw [reverse_cons, dropWhile_append]
  split
  · rename_i empty
    rw [isEmpty_iff.mp empty, dropWhile_cons_of_neg (by simp [solid])]
    rfl
  · rw [reverse_append]
    rfl

theorem trimEnd_trimEnd (cs : List Char) : trimEnd (trimEnd cs) = trimEnd cs := by
  rw [trimEnd, trimEnd, reverse_reverse]
  exact congrArg reverse (dropWhile_idempotent ..)

theorem trim_trim (cs : List Char) : trim (trim cs) = trim cs := by
  unfold trim
  cases front : trimStart cs with
  | nil => rfl
  | cons c rest =>
    have solid := Markup.Piece.trimStart_cons_not_blank front
    have same : trimStart (c :: trimEnd rest) = c :: trimEnd rest := dropWhile_cons_of_neg (by simp [solid])
    rw [trimEnd_cons solid, same, trimEnd_cons solid, trimEnd_trimEnd]

theorem trim_cons_blank (blank : isBlank c = true) (cs : List Char) : trim (c :: cs) = trim cs := by
  unfold trim trimStart
  rw [dropWhile_cons_of_pos blank]

theorem not_mem_of_mem_splitAt {piece : List Char} (mem : piece ∈ splitAt mark cs) : mark ∉ piece := by
  induction cs generalizing piece with
  | nil =>
    obtain rfl := mem_singleton.mp mem
    exact not_mem_nil
  | cons c _ ih =>
    rw [splitAt] at mem
    split at mem
    · rcases mem_cons.mp mem with rfl | later
      · exact not_mem_nil
      · exact ih later
    · rename_i other
      have apart : mark ≠ c := fun same => other same.symm
      split at mem
      · obtain rfl := mem_singleton.mp mem
        simpa using apart
      · rename_i first pieces split
        rcases mem_cons.mp mem with rfl | later
        · exact not_mem_cons_of_ne_of_not_mem apart (ih (split ▸ mem_cons_self))
        · exact ih (split ▸ mem_cons_of_mem first later)

theorem splitOnce_eq {before after : List Char} (split : splitOnce mark cs = some (before, after)) :
    cs = before ++ mark :: after ∧ mark ∉ before := by
  induction cs generalizing before with
  | nil => cases split
  | cons _ _ ih =>
    rw [splitOnce] at split
    split at split
    · obtain ⟨rfl, rfl⟩ := Prod.mk.inj (some.inj split)
      rename_i here
      exact ⟨by rw [here]; rfl, not_mem_nil⟩
    · rename_i other
      obtain ⟨⟨_, _⟩, found, same⟩ := map_eq_some_iff.mp split
      obtain ⟨rfl, rfl⟩ := Prod.mk.inj same
      obtain ⟨rfl, absent⟩ := ih found
      exact ⟨rfl, not_mem_cons_of_ne_of_not_mem (fun same => other same.symm) absent⟩

end LiveMarkup.Text

namespace LiveMarkup.Markup.Style
open Text List

/-- The name of a property that is read back as it is written. -/
structure TidyName (name : String) : Prop where
  nonempty : name ≠ ""
  trim_eq : trim name.toList = name.toList
  noColon : ':' ∉ name.toList
  noSemicolon : ';' ∉ name.toList

/-- The value of a property that is read back as it is written. -/
structure TidyValue (value : String) : Prop where
  trim_eq : trim value.toList = value.toList
  noSemicolon : ';' ∉ value.toList

def Tidy (declarations : Declarations) : Prop := ∀ entry ∈ declarations, TidyName entry.1 ∧ TidyValue entry.2

instance (name : String) : Decidable (TidyName name) :=
  decidable_of_iff (name ≠ "" ∧ trim name.toList = name.toList ∧ ':' ∉ name.toList ∧ ';' ∉ name.toList)
    ⟨fun ⟨a, b, c, d⟩ => ⟨a, b, c, d⟩, fun ⟨a, b, c, d⟩ => ⟨a, b, c, d⟩⟩

instance (value : String) : Decidable (TidyValue value) :=
  decidable_of_iff (trim value.toList = value.toList ∧ ';' ∉ value.toList) ⟨fun ⟨a, b⟩ => ⟨a, b⟩, fun ⟨a, b⟩ => ⟨a, b⟩⟩

theorem declaration?_written {lead : List Char} (blank : ∀ cs, trim (lead ++ cs) = trim cs) (plain : ':' ∉ lead)
    {name value : String} (tidy : TidyName name) (tidyValue : TidyValue value) :
    declaration? (lead ++ (name.toList ++ ':' :: ' ' :: value.toList)) = some (name, value) := by
  have absent : ':' ∉ lead ++ name.toList := by simp [plain, tidy.noColon]
  have some : (trim (lead ++ name.toList)).isEmpty = false := by
    rw [blank, tidy.trim_eq]
    simpa using tidy.nonempty
  rw [declaration?, ← append_assoc, splitOnce_append absent]
  simp only [Option.bind_some, some]
  rw [blank, tidy.trim_eq, trim_cons_blank (by decide), tidyValue.trim_eq, String.ofList_toList, String.ofList_toList]
  rfl

theorem parse_render {declarations : Declarations} (tidy : Tidy declarations) : parse (render declarations) = declarations := by
  have colon : ": ".toList = [':', ' '] := rfl
  have mark : ";".toList = [';'] := rfl
  have space : " ".toList = [' '] := rfl
  have step : ∀ {lead : List Char}, (∀ cs, trim (lead ++ cs) = trim cs) → ':' ∉ lead → ';' ∉ lead →
      ∀ {name value : String}, TidyName name → TidyValue value → ∀ rest,
        (splitAt ';' (lead ++ ((name ++ ": " ++ value ++ ";").toList ++ rest))).filterMap declaration? =
          (name, value) :: (splitAt ';' rest).filterMap declaration? := by
    intro lead blank noColon noSemicolon name value tidyName tidyValue rest
    have absent : ';' ∉ lead ++ (name.toList ++ ':' :: ' ' :: value.toList) := by
      simp [noSemicolon, tidyName.noSemicolon, tidyValue.noSemicolon]
    have shape : lead ++ ((name ++ ": " ++ value ++ ";").toList ++ rest) =
        (lead ++ (name.toList ++ ':' :: ' ' :: value.toList)) ++ ';' :: rest := by
      simp [colon, mark]
    rw [shape, splitAt_append absent, filterMap_cons_some (declaration?_written blank noColon tidyName tidyValue)]
  -- Every declaration but the first has a space before it.
  have later : ∀ (declarations : Declarations), Tidy declarations →
      (splitAt ';' ((declarations.map fun entry => ' ' :: (entry.1 ++ ": " ++ entry.2 ++ ";").toList).flatten)).filterMap
        declaration? = declarations := by
    intro declarations tidy
    induction declarations with
    | nil => rfl
    | cons entry _ ih =>
      obtain ⟨name, value⟩ := tidy entry mem_cons_self
      have here := @step [' '] (trim_cons_blank (by decide)) (by decide) (by decide) _ _ name value
      rw [map_cons, flatten_cons, cons_append]
      exact (here _).trans (congrArg _ (ih fun other mem => tidy other (mem_cons_of_mem entry mem)))
  cases declarations with
  | nil => rfl
  | cons entry declarations =>
    obtain ⟨name, value⟩ := tidy entry mem_cons_self
    have first := @step [] (fun _ => rfl) not_mem_nil not_mem_nil _ _ name value
    have whole : (render (entry :: declarations)).toList = (entry.1 ++ ": " ++ entry.2 ++ ";").toList ++
        (declarations.map fun entry => ' ' :: (entry.1 ++ ": " ++ entry.2 ++ ";").toList).flatten := by
      clear first name value tidy
      unfold render
      induction declarations generalizing entry with
      | nil => simp
      | cons next _ ih =>
        have rest := ih next
        rw [map_cons] at rest
        rw [map_cons, map_cons, String.intercalate_cons_cons, String.toList_append, String.toList_append, rest,
          map_cons, flatten_cons, space]
        simp only [append_assoc, cons_append, nil_append]
    rw [parse, whole]
    exact (first _).trans (congrArg _ (later declarations fun other mem => tidy other (mem_cons_of_mem entry mem)))

theorem tidy_parse (style : String) : Tidy (parse style) := by
  intro entry mem
  obtain ⟨_, among, read⟩ := mem_filterMap.mp mem
  have closed := not_mem_of_mem_splitAt among
  unfold declaration? at read
  obtain ⟨⟨_, _⟩, split, found⟩ := Option.bind_eq_some_iff.mp read
  obtain ⟨rfl, noColon⟩ := splitOnce_eq split
  dsimp only at found
  split at found
  · cases found
  · rename_i some
    obtain rfl := Option.some.inj found
    refine ⟨⟨?_, ?_, ?_, ?_⟩, ?_, ?_⟩
    · intro empty
      have none := congrArg String.toList empty
      rw [String.toList_ofList] at none
      simp [none] at some
    · rw [String.toList_ofList, trim_trim]
    · rw [String.toList_ofList]
      exact fun mem => noColon (trim_subset _ mem)
    · rw [String.toList_ofList]
      exact fun mem => closed (mem_append_left _ (trim_subset _ mem))
    · rw [String.toList_ofList, trim_trim]
    · rw [String.toList_ofList]
      exact fun mem => closed (mem_append_right _ (mem_cons_of_mem _ (trim_subset _ mem)))

theorem render_ne_empty {declarations : Declarations} (tidy : Tidy declarations) (some : declarations ≠ []) :
    render declarations ≠ "" := by
  intro empty
  have read := parse_render tidy
  rw [empty] at read
  exact some read.symm

end LiveMarkup.Markup.Style

namespace LiveMarkup.Live
open Text Markup Document
variable {declarations : Style.Declarations} {value : Option String} {name : String}

def declared (declarations : Style.Declarations) (name : String) (value : Option String) : Style.Declarations :=
  match value with
  | some value => putEntry name value declarations
  | none => declarations.filter (·.1 != name)

theorem mem_putEntry {α : Type} {entries : List (String × α)} {value : α} {entry : String × α}
    (mem : entry ∈ putEntry name value entries) : entry ∈ entries ∨ entry = (name, value) := by
  induction entries with
  | nil => exact .inr (List.mem_singleton.mp mem)
  | cons _ _ ih =>
    rw [putEntry] at mem
    split at mem
    · rename_i same
      rcases List.mem_cons.mp mem with rfl | later
      · exact .inr (by rw [same])
      · exact .inl (List.mem_cons_of_mem _ later)
    · rcases List.mem_cons.mp mem with rfl | later
      · exact .inl List.mem_cons_self
      · rcases ih later with before | new
        · exact .inl (List.mem_cons_of_mem _ before)
        · exact .inr new

theorem tidy_declared {declarations : Style.Declarations} (tidy : Style.Tidy declarations) {name : String}
    (tidyName : Style.TidyName name) {value : Option String} (tidyValue : ∀ text ∈ value, Style.TidyValue text) :
    Style.Tidy (declared declarations name value) := by
  intro entry mem
  cases value with
  | none => exact tidy entry (List.mem_of_mem_filter mem)
  | some text =>
    rcases mem_putEntry mem with before | rfl
    · exact tidy entry before
    · exact ⟨tidyName, tidyValue text rfl⟩

theorem nodup_declared (once : (declarations.map Prod.fst).Nodup) (name : String) (value : Option String) :
    ((declared declarations name value).map Prod.fst).Nodup := by
  cases value with
  | none => exact nodup_keys_filter once name
  | some text => exact nodup_keys_putEntry once name text

theorem styleText_eq (tidy : Style.Tidy declarations) :
    styleText declarations = if Style.render declarations = "" then none else some (Style.render declarations) := by
  unfold styleText
  by_cases empty : declarations = []
  · rw [empty]
    rfl
  · rw [if_neg (by simpa using empty), if_neg (Style.render_ne_empty tidy empty)]

theorem parse_styleText (tidy : Style.Tidy declarations) : Style.parse ((styleText declarations).getD "") = declarations := by
  unfold styleText
  split
  · rename_i empty
    rw [List.isEmpty_iff.mp empty]
    rfl
  · exact Style.parse_render tidy

theorem declared_of_absent (absent : declarations.any (·.1 == name) = false) :
    declared declarations name none = declarations := by
  refine List.filter_eq_self.mpr fun entry mem => ?_
  simpa using List.any_eq_false.mp absent entry mem

theorem setStyleIn_cases (name : String) (value : Option String) (attrs : Attributes) :
    let declarations := Style.parse ((valueUnder? attrs "style").getD "")
    setStyleIn name value attrs = withAttribute "style" (styleText (declared declarations name value)) attrs ∨
      value = none ∧ declarations.any (·.1 == name) = false ∧ setStyleIn name value attrs = attrs := by
  intro declarations
  cases value with
  | some => exact .inl rfl
  | none =>
    cases absent : declarations.any (·.1 == name) with
    | true => exact .inl (if_pos absent)
    | false => exact .inr ⟨rfl, rfl, if_neg (absent ▸ Bool.false_ne_true)⟩

theorem normalizeIn_setStyleIn (tidyName : Style.TidyName name) (tidyValue : ∀ text ∈ value, Style.TidyValue text)
    (attrs : Attributes) :
    normalizeIn "style" normalStyle (setStyleIn name value attrs) =
      withAttribute "style" (styleText (declared (Style.parse ((valueUnder? attrs "style").getD "")) name value))
        attrs := by
  have old := Style.tidy_parse ((valueUnder? attrs "style").getD "")
  have new := tidy_declared old tidyName tidyValue
  have rewritten : ∀ declarations, Style.Tidy declarations →
      normalizeIn "style" normalStyle (withAttribute "style" (styleText declarations) attrs) =
        withAttribute "style" (styleText declarations) attrs := by
    intro declarations tidy
    rw [normalizeIn, valueUnder?_withAttribute, if_pos rfl]
    cases shown : styleText declarations with
    | none => rfl
    | some =>
      have read := parse_styleText tidy
      rw [styleText_eq tidy] at shown
      split at shown
      · cases shown
      · rename_i some
        obtain rfl := Option.some.inj shown
        have normal : normalStyle (Style.render declarations) = Style.render declarations := by
          rw [normalStyle, Style.parse_render tidy]
        dsimp only
        rw [normal, if_neg some]
        exact putEntry_putEntry attrs "style" _ _
  rcases setStyleIn_cases name value attrs with written | ⟨rfl, absent, same⟩
  · rw [written]
    exact rewritten _ new
  · rw [same, declared_of_absent absent, normalizeIn]
    cases found : valueUnder? attrs "style" with
    | none => exact (withAttribute_same found).symm
    | some =>
      rw [styleText_eq (Style.tidy_parse _)]
      rfl

theorem edited_bindStyle {η : Type} {doc : Document η Property} {n : NodeId} {node : Node η Property}
    (found : doc.node? n = some node) (tidyName : Style.TidyName name) (tidyValue : ∀ text ∈ value, Style.TidyValue text) :
    Edited doc (bindStyle doc n name value) n node
      { node with
        attributes := withAttribute "style"
          (styleText (declared (Style.parse ((valueUnder? node.attributes "style").getD "")) name value)) node.attributes
        properties := rememberIn (fun toggles => { toggles with styles := putEntry name value toggles.styles })
          node.properties } := by
  have whole := edited_bindStyle_written found name value
  rw [normalizeIn_setStyleIn tidyName tidyValue] at whole
  exact whole

end LiveMarkup.Live
