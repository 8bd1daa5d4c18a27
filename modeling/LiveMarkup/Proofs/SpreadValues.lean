import LiveMarkup.Proofs.ListAttributes

/-!
Values that are spread and values that are bound directly. A value of a known type is turned into an attribute by its type;
of a value in props the type has to be found out first. Both come to the same for every value but an optional one that
holds anything else than a text of its own or a fixed one.
-/

namespace LiveMarkup.Live
open Markup Document Codegen String

namespace Props

@[simp] theorem afterStart?_append (start name : String) : afterStart? start (start ++ name) = some name := by
  simp [afterStart?, toList_append, ← length_toList]

theorem isClientOnly_append {start : String} (marked : start = "class:" ∨ start = "style:") (name : String) :
    isClientOnly (start ++ name) = false := by
  have other : start ++ name ≠ "children" := by
    intro same
    have letters := congrArg toList same
    rcases marked with rfl | rfl <;> simp [toList_append] at letters
  rcases marked with rfl | rfl <;> simp [isClientOnly, other, afterStart?, toList_append]

end Props

namespace Binding

def key : Binding → String
  | .plain name => name
  | .toggle name => "class:" ++ name
  | .style name => "style:" ++ name

/-- A plain name is one that selects an attribute, which may be the whole class or style. -/
def Keyed : Binding → Prop
  | .plain name => Props.isClientOnly name = false ∧ Props.afterStart? "class:" name = none ∧
      Props.afterStart? "style:" name = none
  | .toggle _ => True
  | .style _ => True

def markup (binding : Binding) (value : Option String) : String :=
  match binding with
  | .plain name => attributeMarkup name value
  | .toggle name => classesMarkup none [(name, value.isSome)]
  | .style name => stylesMarkup none [(name, value)]

variable {binding : Binding} {η : Type}

theorem isClientOnly_key (keyed : binding.Keyed) : Props.isClientOnly binding.key = false := by
  cases binding with
  | plain => exact keyed.1
  | toggle name => exact Props.isClientOnly_append (.inl rfl) name
  | style name => exact Props.isClientOnly_append (.inr rfl) name

theorem applyEntry_key (keyed : binding.Keyed) (n : NodeId) (datum : Datum) (doc : Document η Property) :
    applyEntry n binding.key datum doc = binding.apply n datum.entryText? doc := by
  cases binding with
  | plain name =>
    obtain ⟨shown, noClass, noStyle⟩ := keyed
    have noProperty : Props.afterStart? "prop:" name = none := by
      simp only [Props.isClientOnly, List.any_cons, Bool.or_eq_false_iff] at shown
      simpa using shown.2.2.2.1
    simp [applyEntry, key, noProperty, noClass, noStyle, apply]
  | toggle name =>
    have noProperty : Props.afterStart? "prop:" ("class:" ++ name) = none := by
      simp [Props.afterStart?, toList_append]
    simp [applyEntry, key, noProperty, apply]
  | style name =>
    have noProperty : Props.afterStart? "prop:" ("style:" ++ name) = none := by
      simp [Props.afterStart?, toList_append]
    have noClass : Props.afterStart? "class:" ("style:" ++ name) = none := by
      simp [Props.afterStart?, toList_append]
    simp [applyEntry, key, noProperty, noClass, apply]

theorem render_spreadOf_key (keyed : binding.Keyed) (datum : Datum) :
    (spreadOf [(binding.key, datum)]).render = binding.markup datum.entryText? := by
  have shown := isClientOnly_key keyed
  have added : spreadOf [(binding.key, datum)] = SpreadMarkup.add {} binding.key datum.entryText? := by
    simp [spreadOf, shown]
  rw [added]
  cases binding with
  | plain name =>
    obtain ⟨-, noClass, noStyle⟩ := keyed
    by_cases whole : name = "class"
    · subst whole
      simp [SpreadMarkup.add, SpreadMarkup.render, key, noClass, noStyle, markup, attributeMarkup]
    · by_cases wholeStyle : name = "style"
      · subst wholeStyle
        simp [SpreadMarkup.add, SpreadMarkup.render, key, noClass, noStyle, markup, attributeMarkup]
      · simp [SpreadMarkup.add, SpreadMarkup.render, key, noClass, noStyle, whole, wholeStyle, markup, attributeMarkup]
  | toggle => simp [SpreadMarkup.add, SpreadMarkup.render, key, markup, attributeMarkup]
  | style name =>
    have noClass : Props.afterStart? "class:" ("style:" ++ name) = none := by
      simp [Props.afterStart?, toList_append]
    simp [SpreadMarkup.add, SpreadMarkup.render, key, noClass, markup, attributeMarkup]

theorem markup_some_ne_none (binding : Binding) (text : String) : binding.markup (some text) ≠ binding.markup none := by
  have shown (name value : String) : attributeMarkup name (some value) ≠ "" := by
    intro same
    have letters := congrArg toList same
    simp [attributeMarkup, toList_append] at letters
  cases binding with
  | plain name => exact shown name text
  | toggle => exact shown "class" _
  | style => exact shown "style" _

end Binding

section Values

theorem Datum.entryText?_eq_iff (datum : Datum) : datum.entryText? = datum.attribute? ↔
    ∀ content, datum = .some content →
      content.attribute? = Option.none ∨ ∃ kind data, content = .text kind data ∧ kind ≠ .shared := by
  cases datum with
  | some content =>
    have known : (Datum.some content).attribute? = content.attribute? := by rw [attribute?]
    rw [known]
    cases content with
    | text kind => cases kind <;> simp [entryText?, attribute?, scalarText?]
    | _ => simp [entryText?, scalarText?, eq_comm]
  | _ => simp [entryText?, attribute?]

theorem Datum.entryText?_eq_or (datum : Datum) : datum.entryText? = datum.attribute? ∨ datum.entryText? = Option.none := by
  cases datum with
  | some content =>
    cases content with
    | text kind => cases kind <;> simp [entryText?, attribute?, scalarText?]
    | _ => exact .inr rfl
  | _ => exact .inl (by simp [entryText?, attribute?])

variable {γ τ : Type}

theorem Props.spreadOrder_singleton (entry : String × Entry γ) : Props.spreadOrder [entry] = [entry] := by
  by_cases whole : entry.1 = "class" ∨ entry.1 = "style"
  · rcases whole with whole | whole <;> simp [Props.spreadOrder, whole]
  · rw [not_or] at whole
    simp [Props.spreadOrder, whole.1, whole.2]

theorem spread_singleton {binding : Binding} (keyed : binding.Keyed) (datum : Datum) (n : NodeId) :
    (spread n [(binding.key, .value datum)] : LiveProgram γ τ Unit) = bindTo n binding (.fixed datum.entryText?) := by
  have named : binding.key ≠ "children" := by
    intro same
    have shown := Binding.isClientOnly_key keyed
    simp [Props.isClientOnly, same] at shown
  have applied : applyEntry n binding.key datum = binding.apply (η := γ) n datum.entryText? :=
    funext fun doc => Binding.applyEntry_key keyed n datum doc
  have once : (spreadEntry n binding.key (.value datum) : LiveProgram γ τ Unit) = bindTo n binding (.fixed datum.entryText?) := by
    rw [spreadEntry, if_neg named, applied]
    rfl
  rw [spread, Props.spreadOrder_singleton]
  change (spreadEntry n binding.key (.value datum) >>= fun _ => pure ()) = _
  rw [once]
  rfl

/-- A value under the key of a binding does to an element what the binding does with the value itself, and is printed as
the binding's markup, exactly when it is no optional value whose content shows without being an owned or fixed text. -/
theorem spread_binds_as_value_iff {binding : Binding} (keyed : binding.Keyed) (datum : Datum) (n : NodeId) :
    (spread n [(binding.key, .value datum)] : LiveProgram γ τ Unit) = bindTo n binding (.fixed datum.attribute?) ∧
        (spreadMarkup [(binding.key, .value datum)] : LiveProgram γ τ String) = pure (binding.markup datum.attribute?) ↔
      ∀ content, datum = .some content →
        content.attribute? = none ∨ ∃ kind data, content = .text kind data ∧ kind ≠ .shared := by
  have printed : (spreadMarkup [(binding.key, .value datum)] : LiveProgram γ τ String) =
      pure (binding.markup datum.entryText?) := by
    rw [← Binding.render_spreadOf_key keyed]
    exact spreadMarkup_given [(binding.key, datum)]
  rw [← Datum.entryText?_eq_iff, spread_singleton keyed, printed]
  constructor
  · rintro ⟨-, same⟩
    have same : binding.markup datum.entryText? = binding.markup datum.attribute? := Reactive.Program.done.inj same
    rcases datum.entryText?_eq_or with known | missed
    · exact known
    · rw [missed] at same ⊢
      cases shown : datum.attribute? with
      | none => rfl
      | some text =>
        rw [shown] at same
        exact absurd same.symm (binding.markup_some_ne_none text)
  · intro same
    rw [same]
    exact ⟨rfl, rfl⟩

theorem spread_binds_as_value_iff_label : (Binding.plain "data-n").Keyed ∧
    (spread 0 [("data-n", .value (.some (.text .owned "a")))] : LiveProgram Unit Unit Unit) =
        bindTo 0 (.plain "data-n") (.fixed (some "a")) ∧
      (spreadMarkup [("data-n", .value (.some (.text .owned "a")))] : LiveProgram Unit Unit String) =
        pure " data-n=\"a\"" := by
  have keyed : (Binding.plain "data-n").Keyed := ⟨by decide, by decide, by decide⟩
  refine ⟨keyed, (spread_binds_as_value_iff keyed (.some (.text .owned "a")) 0).mpr ?_⟩
  rintro content ⟨⟩
  exact .inr ⟨.owned, "a", rfl, nofun⟩

/-- An optional number sets an attribute when it is bound, and none when it is spread. -/
theorem optional_number_not_spread : (applyEntry 0 "data-n" (.some (.int 5)) (alone [])).attribute? 0 "data-n" = none ∧
      ((Binding.plain "data-n").apply 0 (Datum.some (.int 5)).attribute? (alone [])).attribute? 0 "data-n" = some "5" ∧
      (spreadMarkup [("data-n", .value (.some (.int 5)))] : LiveProgram Unit Unit String) = pure "" ∧
      attributeMarkup "data-n" (Datum.some (.int 5)).attribute? = " data-n=\"5\"" := by
  have nothing : (spreadOf [("data-n", .some (.int 5))]).render = "" := by decide
  exact ⟨by decide, by decide, (spreadMarkup_given [("data-n", .some (.int 5))]).trans (congrArg pure nothing), by decide⟩

end Values
end LiveMarkup.Live
