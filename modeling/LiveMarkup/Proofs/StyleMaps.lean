import LiveMarkup.Proofs.Styles
import Mathlib.Data.List.Induction

/-!
Styles as maps. Every call that sets a style reads the whole text and writes it anew; over any run of such calls the
declarations change as the entries of a map do, and the text is there just as long as there are any.
-/

namespace LiveMarkup.Document
open Markup Live List

variable {η π : Type} {doc : Document η π} {n : NodeId} {name : String} {value : Option String}
variable {calls : List (String × Option String)} {decls : Style.Declarations}

/-- Sets the style of a name to a value or removes it, call by call. -/
def setStyles (doc : Document η π) (n : NodeId) (calls : List (String × Option String)) : Document η π :=
  calls.foldl (fun doc call => doc.setStyle n call.1 call.2) doc

/-- A call whose name and value, if it has one, are read back as they are written. -/
structure TidyCall (call : String × Option String) : Prop where
  name : Style.TidyName call.1
  value : ∀ text ∈ call.2, Style.TidyValue text

instance (call : String × Option String) : Decidable (TidyCall call) :=
  decidable_of_iff (Style.TidyName call.1 ∧ ∀ text ∈ call.2, Style.TidyValue text)
    ⟨fun ⟨name, value⟩ => ⟨name, value⟩, fun ⟨name, value⟩ => ⟨name, value⟩⟩

theorem valueUnder?_declared (decls : Style.Declarations) (name other : String) (value : Option String) :
    valueUnder? (declared decls name value) other = if other = name then value else valueUnder? decls other := by
  cases value with
  | none => exact valueUnder?_filter_ne decls name other
  | some text => exact valueUnder?_putEntry decls name other text

theorem tidy_styles (doc : Document η π) (n : NodeId) : Style.Tidy (doc.styles n) := Style.tidy_parse _

theorem styles_of_attribute? (tidy : Style.Tidy decls)
    (written : doc.attribute? n "style" = styleText decls) : doc.styles n = decls := by
  rw [styles, written, parse_styleText tidy]

theorem present_setStyle (present : (doc.node? n).isSome) (name : String) (value : Option String) :
    ((doc.setStyle n name value).node? n).isSome := by
  obtain ⟨_, found⟩ := Option.isSome_iff_exists.mp present
  simp [(edited_setStyle found name value).result]

theorem setStyle_cases (present : (doc.node? n).isSome) (name : String) (value : Option String) :
    (doc.setStyle n name value).attribute? n "style" = styleText (declared (doc.styles n) name value) ∨
      declared (doc.styles n) name value = doc.styles n ∧ doc.setStyle n name value = doc := by
  obtain ⟨node, found⟩ := Option.isSome_iff_exists.mp present
  have before : doc.styles n = Style.parse ((valueUnder? node.attributes "style").getD "") := by
    rw [styles, attribute?_of_node? found]
  have after := attribute?_of_node? (edited_setStyle found name value).result "style"
  rcases setStyleIn_cases name value node.attributes with written | ⟨rfl, absent, -⟩
  · left
    rw [after, written, valueUnder?_withAttribute, if_pos rfl, before]
  · right
    rw [← before] at absent
    exact ⟨declared_of_absent absent, by simp only [setStyle, absent, Bool.false_eq_true, if_false]⟩

theorem styles_setStyle (present : (doc.node? n).isSome) (tidy : TidyCall (name, value)) :
    (doc.setStyle n name value).styles n = declared (doc.styles n) name value := by
  rcases setStyle_cases present name value with written | ⟨same, unchanged⟩
  · exact styles_of_attribute? (tidy_declared (tidy_styles doc n) tidy.name tidy.value) written
  · rw [unchanged, same]

/-- The style attribute is what its declarations are written as, and is missing where there are none. -/
def StyleWritten (doc : Document η π) (n : NodeId) : Prop := doc.attribute? n "style" = styleText (doc.styles n)

theorem styleWritten_setStyle (present : (doc.node? n).isSome) (tidy : TidyCall (name, value))
    (before : doc.StyleWritten n ∨ doc.setStyle n name value ≠ doc) : (doc.setStyle n name value).StyleWritten n := by
  rcases setStyle_cases present name value with written | ⟨-, unchanged⟩
  · rw [StyleWritten, styles_setStyle present tidy, written]
  · rw [unchanged]
    exact before.resolve_right (not_not.mpr unchanged)

theorem StyleWritten.attribute?_eq_none_iff (written : doc.StyleWritten n) :
    doc.attribute? n "style" = none ↔ doc.styles n = [] := by
  rw [written, styleText]
  split <;> simp_all

theorem setStyles_append (doc : Document η π) (n : NodeId) (before later : List (String × Option String)) :
    doc.setStyles n (before ++ later) = (doc.setStyles n before).setStyles n later := foldl_append

theorem present_setStyles (present : (doc.node? n).isSome) (calls : List (String × Option String)) :
    ((doc.setStyles n calls).node? n).isSome := by
  induction calls generalizing doc with
  | nil => exact present
  | cons call _ ih => exact ih (present_setStyle present call.1 call.2)

theorem styles_setStyles (present : (doc.node? n).isSome) (tidy : ∀ call ∈ calls, TidyCall call) :
    (doc.setStyles n calls).styles n =
      calls.foldl (fun decls call => declared decls call.1 call.2) (doc.styles n) := by
  induction calls generalizing doc with
  | nil => rfl
  | cons call _ ih =>
    have later := ih (present_setStyle present call.1 call.2) fun other mem => tidy other (mem_cons_of_mem call mem)
    rw [styles_setStyle present (tidy call mem_cons_self)] at later
    exact later

theorem valueUnder?_foldl_declared (calls : List (String × Option String)) (decls : Style.Declarations) (name : String) :
    valueUnder? (calls.foldl (fun decls call => declared decls call.1 call.2) decls) name =
      (valueUnder? calls.reverse name).getD (valueUnder? decls name) := by
  induction calls using reverseRecOn with
  | nil => rfl
  | append_singleton _ call ih =>
    rw [foldl_append, foldl_cons, foldl_nil, valueUnder?_declared, ih, reverse_concat]
    by_cases same : name = call.1
    · simp [valueUnder?, same]
    · have apart : ¬ call.1 = name := fun h => same h.symm
      simp [valueUnder?, same, apart]

theorem nodup_foldl_declared (once : (decls.map Prod.fst).Nodup) (calls : List (String × Option String)) :
    ((calls.foldl (fun decls call => declared decls call.1 call.2) decls).map Prod.fst).Nodup := by
  induction calls generalizing decls with
  | nil => exact once
  | cons call _ ih => exact ih (nodup_declared once call.1 call.2)

theorem styleWritten_setStyles (present : (doc.node? n).isSome) (tidy : ∀ call ∈ calls, TidyCall call)
    (before : doc.StyleWritten n) : (doc.setStyles n calls).StyleWritten n := by
  induction calls generalizing doc with
  | nil => exact before
  | cons call _ ih =>
    exact ih (present_setStyle present call.1 call.2) (fun other mem => tidy other (mem_cons_of_mem call mem))
      (styleWritten_setStyle present (tidy call mem_cons_self) (.inl before))

/-- However often styles of an element are set, each name has the value that it was given last, or else the one that it
had; no name is declared twice that was not before; what is written of tidy declarations is read back; and once a call
has changed anything, there is a style attribute just as long as there is a declaration. -/
theorem styles_are_a_map (present : (doc.node? n).isSome) (tidy : ∀ call ∈ calls, TidyCall call) :
    (∀ name, (doc.setStyles n calls).style? n name = (valueUnder? calls.reverse name).getD (doc.style? n name)) ∧
    (((doc.styles n).map Prod.fst).Nodup → (((doc.setStyles n calls).styles n).map Prod.fst).Nodup) ∧
    (∀ declarations, Style.Tidy declarations → Style.parse (Style.render declarations) = declarations) ∧
    ∀ before call later, calls = before ++ call :: later →
      (doc.setStyles n before).setStyle n call.1 call.2 ≠ doc.setStyles n before →
        ((doc.setStyles n calls).attribute? n "style" = none ↔ (doc.setStyles n calls).styles n = []) := by
  refine ⟨fun name => ?_, fun once => ?_, fun declarations tidy => Style.parse_render tidy, ?_⟩
  · rw [style?, styles_setStyles present tidy, valueUnder?_foldl_declared, style?]
  · rw [styles_setStyles present tidy]
    exact nodup_foldl_declared once calls
  · rintro before call later rfl changes
    have there := present_setStyles present before
    have here := styleWritten_setStyle there (tidy call (by simp)) (.inr changes)
    have rest : ∀ other ∈ later, TidyCall other := fun other inside => tidy other (by simp [inside])
    rw [setStyles_append]
    exact (styleWritten_setStyles (present_setStyle there call.1 call.2) rest here).attribute?_eq_none_iff

def floatingBox : Document Unit Unit where
  nodes := #[{ kind := .element "div" false, attributes := [("style", " color:red;float ;; float : left")] }]

theorem styles_are_a_map_floatingBox : let calls := [("float", none), ("float", some "right"), ("color", none)]
    (floatingBox.node? 0).isSome ∧ (∀ call ∈ calls, TidyCall call) ∧
      (floatingBox.setStyles 0 calls).style? 0 "float" = some "right" ∧
        (floatingBox.setStyles 0 calls).style? 0 "color" = none ∧
          ((floatingBox.setStyles 0 calls).attribute? 0 "style" = none ↔ (floatingBox.setStyles 0 calls).styles 0 = []) := by
  intro calls
  have present : (floatingBox.node? 0).isSome := rfl
  have tidy : ∀ call ∈ calls, TidyCall call := by decide
  obtain ⟨values, -, -, missing⟩ := styles_are_a_map present tidy
  have changes : floatingBox.setStyle 0 "float" none ≠ floatingBox := by
    intro same
    have text : (floatingBox.setStyle 0 "float" none).attribute? 0 "style" = some "color: red;" := by decide +kernel
    rw [same] at text
    exact absurd text (by decide)
  exact ⟨present, tidy, values "float", values "color", missing [] ("float", none) _ rfl changes⟩

end LiveMarkup.Document
