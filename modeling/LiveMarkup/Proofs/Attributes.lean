import LiveMarkup.Live.Toggles
import LiveMarkup.Proofs.Records

/-!
What bindings make of the attributes of an element. The words of a class and the declarations of a style are read
back from what is written of them, so that an attribute can be described by them alone.
-/

namespace LiveMarkup.Text
open List Prod Document

def IsWord (s : String) : Prop := s.toList ≠ [] ∧ ∀ c ∈ s.toList, isBlank c = false

instance (s : String) : Decidable (IsWord s) :=
  decidable_of_iff (s.toList ≠ [] ∧ s.toList.all (isBlank · == false) = true) (by simp [IsWord])

theorem wordsFrom_solid (pending solid rest : List Char) (all : ∀ c ∈ solid, isBlank c = false) :
    wordsFrom pending (solid ++ rest) = wordsFrom (solid.reverse ++ pending) rest := by
  induction solid generalizing pending with
  | nil => rfl
  | cons c _ ih =>
    have here := all c (by simp)
    rw [cons_append, wordsFrom, here, ih (c :: pending) fun d mem => all d (by simp [mem])]
    simp

theorem isWord_of_mem_wordsFrom {pending cs word : List Char} (solid : ∀ c ∈ pending, isBlank c = false)
    (mem : word ∈ wordsFrom pending cs) : word ≠ [] ∧ ∀ c ∈ word, isBlank c = false := by
  induction cs generalizing pending with
  | nil =>
    unfold wordsFrom at mem
    split at mem
    · cases mem
    · rename_i some
      obtain rfl := mem_singleton.mp mem
      exact ⟨by simpa using some, by simpa using solid⟩
  | cons _ _ ih =>
    unfold wordsFrom at mem
    split at mem
    · split at mem
      · exact ih (by simp) mem
      · rename_i some
        rcases mem_cons.mp mem with rfl | later
        · exact ⟨by simpa using some, by simpa using solid⟩
        · exact ih (by simp) later
    · rename_i blank
      refine ih (fun d member => ?_) mem
      rcases mem_cons.mp member with rfl | before
      · simpa using blank
      · exact solid d before

theorem isWord_of_mem_wordsOf {s word : String} (mem : word ∈ wordsOf s) : IsWord word := by
  obtain ⟨_, member, rfl⟩ := mem_map.mp mem
  have solid := isWord_of_mem_wordsFrom (by simp) member
  simpa [IsWord] using solid

theorem wordsOf_intercalate {names : List String} (all : ∀ name ∈ names, IsWord name) :
    wordsOf (" ".intercalate names) = names := by
  have solid : ∀ name ∈ names, ∀ rest, words (name.toList ++ rest) = wordsFrom name.toList.reverse rest := by
    intro name mem rest
    simpa [words] using wordsFrom_solid [] name.toList rest (all name mem).2
  have nonempty : ∀ name ∈ names, name.toList.reverse.isEmpty = false := by
    intro name mem
    simpa using (all name mem).1
  induction names with
  | nil => rfl
  | cons name names ih =>
    cases names with
    | nil =>
      have alone := solid name (by simp) []
      rw [append_nil] at alone
      rw [String.intercalate_singleton, wordsOf, alone, wordsFrom, nonempty name (by simp)]
      simp
    | cons =>
      have later := ih (fun n mem => all n (mem_cons_of_mem _ mem))
        (fun n mem => solid n (mem_cons_of_mem _ mem))
        fun n mem => nonempty n (mem_cons_of_mem _ mem)
      have blank : isBlank ' ' = true := by decide
      have space : " ".toList = [' '] := rfl
      rw [wordsOf, words] at later
      rw [String.intercalate_cons_cons, wordsOf, String.toList_append, String.toList_append, append_assoc,
        solid name (by simp), space, singleton_append, wordsFrom, if_pos blank, nonempty name (by simp)]
      simp only [Bool.false_eq_true, if_false, reverse_reverse, map_cons, String.ofList_toList, later]

end LiveMarkup.Text

namespace LiveMarkup

section Entries

variable {α : Type} {entries : List (String × α)} {name : String}

theorem valueUnder?_putEntry (entries : List (String × α)) (name other : String) (value : α) :
    valueUnder? (putEntry name value entries) other = if other = name then some value else valueUnder? entries other := by
  induction entries with
  | nil =>
    by_cases same : other = name
    · simp [valueUnder?, putEntry, same]
    · have apart : ¬ name = other := fun h => same h.symm
      simp [valueUnder?, putEntry, same, apart]
  | cons entry _ ih =>
    obtain ⟨n, _⟩ := entry
    simp only [valueUnder?] at ih ⊢
    by_cases here : n = name
    · subst here
      by_cases same : other = n
      · simp [putEntry, same]
      · have apart : ¬ n = other := fun h => same h.symm
        simp [putEntry, same, apart]
    · by_cases found : n = other
      · subst found
        simp [putEntry, here]
      · simp [putEntry, here, found, ih]

theorem valueUnder?_filter_ne (entries : List (String × α)) (name other : String) :
    valueUnder? (entries.filter (·.1 != name)) other = if other = name then none else valueUnder? entries other := by
  induction entries with
  | nil => simp [valueUnder?]
  | cons entry _ ih =>
    obtain ⟨n, _⟩ := entry
    simp only [valueUnder?] at ih ⊢
    by_cases erased : n = name <;> by_cases found : n = other <;> simp_all

theorem keys_putEntry (entries : List (String × α)) (name : String) (value : α) :
    (putEntry name value entries).map Prod.fst =
      if name ∈ entries.map Prod.fst then entries.map Prod.fst else entries.map Prod.fst ++ [name] := by
  induction entries with
  | nil => simp [putEntry]
  | cons entry _ ih =>
    obtain ⟨n, _⟩ := entry
    by_cases here : n = name
    · simp [putEntry, here]
    · have apart : ¬ name = n := fun h => here h.symm
      simp only [putEntry, if_neg here, List.map_cons, ih, List.mem_cons, apart, false_or]
      split <;> simp

theorem nodup_keys_putEntry (once : (entries.map Prod.fst).Nodup) (name : String) (value : α) :
    ((putEntry name value entries).map Prod.fst).Nodup := by
  rw [keys_putEntry]
  split
  · exact once
  · rename_i absent
    refine List.nodup_append.mpr ⟨once, by simp, ?_⟩
    rintro _ first _ second rfl
    exact absent (List.mem_singleton.mp second ▸ first)

theorem nodup_keys_filter (once : (entries.map Prod.fst).Nodup) (name : String) :
    ((entries.filter (·.1 != name)).map Prod.fst).Nodup :=
  once.sublist ((List.filter_sublist).map Prod.fst)

theorem putEntry_same {value : α} (found : valueUnder? entries name = some value) : putEntry name value entries = entries := by
  induction entries with
  | nil => simp [valueUnder?] at found
  | cons entry _ ih =>
    obtain ⟨n, _⟩ := entry
    simp only [valueUnder?] at ih found
    by_cases here : n = name
    · simp_all [putEntry]
    · simp only [putEntry, if_neg here, List.cons.injEq, true_and]
      exact ih (by simpa [here] using found)

theorem putEntry_putEntry (entries : List (String × α)) (name : String) (first second : α) :
    putEntry name second (putEntry name first entries) = putEntry name second entries := by
  induction entries with
  | nil => simp [putEntry]
  | cons entry _ ih =>
    obtain ⟨n, _⟩ := entry
    by_cases here : n = name <;> simp [putEntry, here, ih]

theorem filter_putEntry (entries : List (String × α)) (name : String) (value : α) :
    (putEntry name value entries).filter (·.1 != name) = entries.filter (·.1 != name) := by
  induction entries with
  | nil => simp [putEntry]
  | cons entry _ ih =>
    obtain ⟨n, _⟩ := entry
    by_cases here : n = name <;> simp [putEntry, here, ih]

theorem filter_ne_of_missing (missing : valueUnder? entries name = none) : entries.filter (·.1 != name) = entries := by
  refine List.filter_eq_self.mpr fun entry mem => ?_
  simp only [valueUnder?, Option.map_eq_none_iff, List.find?_eq_none] at missing
  simpa using missing entry mem

end Entries

end LiveMarkup

namespace LiveMarkup.Markup.Style
open Text
variable {cs : List Char} {mark : Char}

theorem splitAt_append (absent : mark ∉ cs) (rest : List Char) :
    splitAt mark (cs ++ mark :: rest) = cs :: splitAt mark rest := by
  induction cs with
  | nil => simp [splitAt]
  | cons c _ ih =>
    obtain ⟨apart, absent⟩ := not_or.mp fun mem => absent (List.mem_cons.mpr mem)
    have other : ¬ c = mark := fun h => apart h.symm
    rw [List.cons_append, splitAt, if_neg other, ih absent]

theorem splitOnce_append (absent : mark ∉ cs) (rest : List Char) : splitOnce mark (cs ++ mark :: rest) = some (cs, rest) := by
  induction cs with
  | nil => simp [splitOnce]
  | cons c _ ih =>
    obtain ⟨apart, absent⟩ := not_or.mp fun mem => absent (List.mem_cons.mpr mem)
    have other : ¬ c = mark := fun h => apart h.symm
    rw [List.cons_append, splitOnce, if_neg other, ih absent]
    rfl

def color (value : String) : String := "color: " ++ value ++ ";"

theorem render_color (value : String) : render [("color", value)] = color value := by
  have name : "color" ++ ": " = "color: " := by decide
  rw [render, List.map_singleton, String.intercalate_singleton, color, ← name]

theorem parse_color {value : String} (closed : ';' ∉ value.toList) :
    parse (color value) = [("color", trimmed value)] := by
  have name : "color: ".toList = ['c', 'o', 'l', 'o', 'r', ':', ' '] := rfl
  have mark : ";".toList = [';'] := rfl
  have shape : (color value).toList = (['c', 'o', 'l', 'o', 'r', ':', ' '] ++ value.toList) ++ ';' :: [] := by
    simp [color, name, mark]
  have absent : ';' ∉ ['c', 'o', 'l', 'o', 'r', ':', ' '] ++ value.toList := by
    simpa using closed
  have declared : declaration? (['c', 'o', 'l', 'o', 'r', ':', ' '] ++ value.toList) = some ("color", trimmed value) := by
    have unmarked : ':' ∉ ['c', 'o', 'l', 'o', 'r'] := by decide
    have divided := splitOnce_append unmarked (' ' :: value.toList)
    have blank : trim (' ' :: value.toList) = trim value.toList := rfl
    rw [declaration?, show ['c', 'o', 'l', 'o', 'r', ':', ' '] ++ value.toList =
      ['c', 'o', 'l', 'o', 'r'] ++ ':' :: (' ' :: value.toList) from rfl, divided]
    simp only [Option.bind_some, blank]
    rfl
  rw [parse, shape, splitAt_append absent, List.filterMap_cons_some declared]
  rfl

end LiveMarkup.Markup.Style

namespace LiveMarkup.Live
open Text Markup Document
variable {attributes : Attributes}

def withAttribute (name : String) (value : Option String) (attributes : Attributes) : Attributes :=
  match value with
  | some value => putEntry name value attributes
  | none => attributes.filter (·.1 != name)

theorem valueUnder?_withAttribute (name other : String) (value : Option String) (attributes : Attributes) :
    valueUnder? (withAttribute name value attributes) other =
      if other = name then value else valueUnder? attributes other := by
  cases value with
  | none => exact valueUnder?_filter_ne attributes name other
  | some value => exact valueUnder?_putEntry attributes name other value

theorem nodup_withAttribute (once : (attributes.map Prod.fst).Nodup) (name : String) (value : Option String) :
    ((withAttribute name value attributes).map Prod.fst).Nodup := by
  cases value with
  | none => exact nodup_keys_filter once name
  | some value => exact nodup_keys_putEntry once name value

theorem withAttribute_same {name : String} {value : Option String} (found : valueUnder? attributes name = value) :
    withAttribute name value attributes = attributes := by
  cases value with
  | none => exact filter_ne_of_missing found
  | some => exact putEntry_same found

theorem withAttribute_putEntry (name : String) (first : String) (value : Option String) (attributes : Attributes) :
    withAttribute name value (putEntry name first attributes) = withAttribute name value attributes := by
  cases value with
  | none => exact filter_putEntry attributes name first
  | some second => exact putEntry_putEntry attributes name first second

section Classes

variable {names : List String} {name : String} {present : Bool} {word : String}

def classText (names : List String) : Option String := if names = [] then none else some (" ".intercalate names)

def classesIn (attributes : Attributes) : List String := ((valueUnder? attributes "class").map wordsOf).getD []

def toggleClassIn (name : String) (present : Bool) (attributes : Attributes) : Attributes :=
  let names := classesIn attributes
  if names.contains name = present then attributes
  else withAttribute "class" (classText (Document.toggled names name present)) attributes

def normalizeIn (name : String) (normal : String → String) (attributes : Attributes) : Attributes :=
  match valueUnder? attributes name with
  | none => attributes
  | some current => withAttribute name (if normal current = "" then none else some (normal current)) attributes

theorem mem_toggled :
    word ∈ toggled names name present ↔ (word ∈ names ∧ word ≠ name) ∨ (present = true ∧ word = name) := by
  unfold toggled
  cases present with
  | false => simp
  | true =>
    by_cases same : word = name
    · subst same
      by_cases mem : word ∈ names <;> simp [mem]
    · by_cases mem : name ∈ names <;> simp [mem, same]

theorem isWord_of_mem_toggled (words : ∀ name ∈ names, IsWord name) (word : IsWord name) :
    ∀ w ∈ toggled names name present, IsWord w := by
  intro w mem
  rcases mem_toggled.mp mem with ⟨before, -⟩ | ⟨-, rfl⟩
  · exact words w before
  · exact word

theorem classesIn_eq (attributes : Attributes) : classesIn attributes = wordsOf ((valueUnder? attributes "class").getD "") := by
  unfold classesIn
  cases valueUnder? attributes "class" <;> rfl

theorem isWord_of_mem_classesIn {attributes : Attributes} (mem : word ∈ classesIn attributes) : IsWord word := by
  rw [classesIn_eq] at mem
  exact isWord_of_mem_wordsOf mem

theorem intercalate_ne_empty (all : ∀ name ∈ names, IsWord name) (some : names ≠ []) : " ".intercalate names ≠ "" := by
  intro empty
  have found := wordsOf_intercalate all
  rw [empty] at found
  exact some found.symm

theorem classText_eq (all : ∀ name ∈ names, IsWord name) :
    classText names = if " ".intercalate names = "" then none else some (" ".intercalate names) := by
  unfold classText
  by_cases empty : names = []
  · simp [empty]
  · simp [empty, intercalate_ne_empty all empty]

theorem wordsOf_classText (words : ∀ name ∈ names, IsWord name) : wordsOf ((classText names).getD "") = names := by
  unfold classText
  split
  · rename_i none
    rw [none]
    rfl
  · exact wordsOf_intercalate words

theorem normalizeIn_toggleClassIn (word : IsWord name) (present : Bool) (attributes : Attributes) :
    normalizeIn "class" normalClass (toggleClassIn name present attributes) =
      withAttribute "class" (classText (toggled (classesIn attributes) name present)) attributes := by
  have words : ∀ w ∈ toggled (classesIn attributes) name present, IsWord w :=
    isWord_of_mem_toggled (fun _ => isWord_of_mem_classesIn) word
  unfold toggleClassIn
  dsimp only
  split
  · rename_i settled
    have same : toggled (classesIn attributes) name present = classesIn attributes := by
      unfold toggled
      cases present with
      | true => simpa using settled
      | false =>
        have absent : name ∉ classesIn attributes := by simpa using settled
        simpa using fun w mem (this : w = name) => absent (this ▸ mem)
    rw [same] at words ⊢
    unfold normalizeIn
    cases found : valueUnder? attributes "class" with
    | none =>
      have none : classText (classesIn attributes) = none := by simp [classText, classesIn, found]
      rw [none]
      exact (withAttribute_same found).symm
    | some text =>
      have names : classesIn attributes = wordsOf text := by simp [classesIn, found]
      rw [names] at words ⊢
      rw [classText_eq words]
      rfl
  · rw [normalizeIn, valueUnder?_withAttribute, if_pos rfl]
    generalize toggled (classesIn attributes) name present = names at words ⊢
    cases shown : classText names with
    | none => rfl
    | some text =>
      have written : text = " ".intercalate names ∧ names ≠ [] := by
        unfold classText at shown
        split at shown
        · cases shown
        · exact ⟨(Option.some.inj shown).symm, ‹_›⟩
      obtain ⟨rfl, some⟩ := written
      have normal : normalClass (" ".intercalate names) = " ".intercalate names := by
        rw [normalClass, wordsOf_intercalate words]
      dsimp only
      rw [normal, if_neg (intercalate_ne_empty words some)]
      exact putEntry_putEntry attributes "class" _ _

end Classes

section Styles

variable {tone : Option String}

def styleText (declarations : Style.Declarations) : Option String :=
  if declarations.isEmpty then none else some (Style.render declarations)

def setStyleIn (name : String) (value : Option String) (attributes : Attributes) : Attributes :=
  let declarations := Style.parse ((valueUnder? attributes "style").getD "")
  match value with
  | some value => withAttribute "style" (styleText (putEntry name value declarations)) attributes
  | none =>
    if declarations.any (·.1 == name) then withAttribute "style" (styleText (declarations.filter (·.1 != name))) attributes
    else attributes

def setColorIn (value : Option String) (attributes : Attributes) : Attributes :=
  let declarations := Style.parse ((valueUnder? attributes "style").getD "")
  let written (declarations : Style.Declarations) : Attributes :=
    withAttribute "style" (if declarations.isEmpty then none else some (Style.render declarations)) attributes
  match value with
  | some value => written (putEntry "color" value declarations)
  | none =>
    if declarations.any (·.1 == "color") then written (declarations.filter (·.1 != "color")) else attributes

def colorText (tone : Option String) : Option String := tone.map fun value => Style.color (trimmed value)

def OnlyColor (attributes : Attributes) : Prop :=
  valueUnder? attributes "style" = none ∨
    ∃ style value, valueUnder? attributes "style" = some style ∧ Style.parse style = [("color", value)]

theorem color_ne_empty (value : String) : Style.color value ≠ "" := by
  intro empty
  have shown := congrArg String.toList empty
  have name : "color: ".toList = ['c', 'o', 'l', 'o', 'r', ':', ' '] := rfl
  simp [Style.color, name] at shown

theorem normalizeIn_setColorIn (closed : ∀ value ∈ tone, ';' ∉ value.toList) {attributes : Attributes}
    (only : OnlyColor attributes) :
    normalizeIn "style" normalStyle (setColorIn tone attributes) = withAttribute "style" (colorText tone) attributes := by
  have declared : Style.parse ((valueUnder? attributes "style").getD "") = [] ∧ valueUnder? attributes "style" = none ∨
      ∃ value, Style.parse ((valueUnder? attributes "style").getD "") = [("color", value)] := by
    rcases only with none | ⟨style, value, found, parsed⟩
    · exact .inl ⟨by rw [none]; rfl, none⟩
    · exact .inr ⟨value, by rw [found]; exact parsed⟩
  cases tone with
  | some value =>
    have put : putEntry "color" value (Style.parse ((valueUnder? attributes "style").getD "")) = [("color", value)] := by
      rcases declared with ⟨empty, _⟩ | ⟨old, one⟩
      · rw [empty]
        rfl
      · rw [one]
        rfl
    have written : setColorIn (some value) attributes = putEntry "style" (Style.color value) attributes := by
      simp only [setColorIn, put, Style.render_color]
      rfl
    have normal : normalStyle (Style.color value) = Style.color (trimmed value) := by
      rw [normalStyle, Style.parse_color (closed value rfl), Style.render_color]
    rw [written, normalizeIn, valueUnder?_putEntry, if_pos rfl]
    dsimp only
    rw [normal, if_neg (color_ne_empty _), withAttribute_putEntry]
    rfl
  | none =>
    rcases declared with ⟨empty, missing⟩ | ⟨old, one⟩
    · have unchanged : setColorIn none attributes = attributes := by
        simp [setColorIn, empty]
      rw [unchanged, normalizeIn, missing]
      exact (withAttribute_same missing).symm
    · have erased : setColorIn none attributes = withAttribute "style" none attributes := by
        simp [setColorIn, one]
      rw [erased, normalizeIn, valueUnder?_withAttribute, if_pos rfl]
      rfl

theorem onlyColor_withAttribute (closed : ∀ value ∈ tone, ';' ∉ (trimmed value).toList) (attributes : Attributes) :
    OnlyColor (withAttribute "style" (colorText tone) attributes) := by
  unfold OnlyColor
  rw [valueUnder?_withAttribute, if_pos rfl]
  cases tone with
  | none => exact .inl rfl
  | some value => exact .inr ⟨_, _, rfl, Style.parse_color (closed value rfl)⟩

end Styles

section Elements

variable {η : Type} {name : String} {π : Type}

structure Edited {π : Type} (doc next : Document η π) (n : NodeId) (before after : Node η π) : Prop where
  found : doc.node? n = some before
  result : next.node? n = some after
  others : ∀ m, m ≠ n → next.node? m = doc.node? m
  size_eq : next.nodes.size = doc.nodes.size
  changes_eq : next.changes = doc.changes

theorem Edited.refl {doc : Document η π} {n : NodeId} {node : Node η π} (found : doc.node? n = some node) :
    Edited doc doc n node node :=
  ⟨found, found, fun _ _ => rfl, rfl, rfl⟩

theorem Edited.trans {π : Type} {first second third : Document η π} {n : NodeId} {a b c : Node η π}
    (one : Edited first second n a b) (two : Edited second third n b c) : Edited first third n a c :=
  ⟨one.found, two.result, fun m apart => (two.others m apart).trans (one.others m apart),
    two.size_eq.trans one.size_eq, two.changes_eq.trans one.changes_eq⟩

theorem edited_modifyNode {doc : Document η π} {n : NodeId} {node : Node η π} (found : doc.node? n = some node)
    (f : Node η π → Node η π) : Edited doc (doc.modifyNode n f) n node (f node) := by
  refine ⟨found, by simp [found], fun m apart => ?_, by simp [modifyNode], rfl⟩
  rw [node?_modifyNode, if_neg fun h => apart h.symm]

variable {doc : Document η Property} {n : NodeId} {node : Node η Property}

theorem attribute?_of_node? {doc : Document η π} {node : Node η π} (found : doc.node? n = some node) (name : String) :
    doc.attribute? n name = valueUnder? node.attributes name := by
  simp [attribute?, attributes, found]

theorem edited_toggleClass {doc : Document η π} {node : Node η π} (found : doc.node? n = some node) (name : String)
    (present : Bool) :
    Edited doc (doc.toggleClass n name present) n node
      { node with attributes := toggleClassIn name present node.attributes } := by
  have names : doc.classes n = classesIn node.attributes := by simp [classes, classesIn, attribute?_of_node? found]
  unfold toggleClass toggleClassIn
  rw [names]
  dsimp only
  split
  · exact .refl found
  · by_cases empty : toggled (classesIn node.attributes) name present = []
    · rw [empty]
      exact edited_modifyNode found _
    · have some : (toggled (classesIn node.attributes) name present).isEmpty = false := by simpa using empty
      rw [some, classText, if_neg empty]
      exact edited_modifyNode found _

theorem edited_normalizeAttribute (found : doc.node? n = some node) (name : String) (normal : String → String) :
    Edited doc (normalizeAttribute doc n name normal) n node
      { node with attributes := normalizeIn name normal node.attributes } := by
  unfold normalizeAttribute normalizeIn
  rw [attribute?_of_node? found]
  cases shown : valueUnder? node.attributes name with
  | none => exact .refl found
  | some =>
    dsimp only
    split
    · exact edited_modifyNode found _
    · split
      · rename_i same
        rw [same, withAttribute_same shown]
        exact .refl found
      · exact edited_modifyNode found _

theorem edited_setStyle {doc : Document η π} {node : Node η π} (found : doc.node? n = some node) (name : String)
    (value : Option String) :
    Edited doc (doc.setStyle n name value) n node { node with attributes := setStyleIn name value node.attributes } := by
  have declared : doc.styles n = Style.parse ((valueUnder? node.attributes "style").getD "") := by
    rw [styles, attribute?_of_node? found]
  unfold setStyle setStyleIn
  rw [declared]
  generalize Style.parse ((valueUnder? node.attributes "style").getD "") = decls
  have written : ∀ decls : Style.Declarations,
      Edited doc (if decls.isEmpty then doc.removeAttribute n "style"
        else doc.setAttribute n "style" (Style.render decls)) n node
        { node with attributes := withAttribute "style" (styleText decls) node.attributes } := by
    intro decls
    unfold styleText
    cases decls.isEmpty with
    | true | false => exact edited_modifyNode found _
  cases value with
  | some => exact written _
  | none =>
    dsimp only
    split
    · exact written _
    · exact .refl found

def togglesIn (properties : List (String × Property)) : Option Toggles :=
  match valueUnder? properties togglesName with
  | some (.toggles toggles) => some toggles
  | _ => none

theorem toggles?_of_node? (found : doc.node? n = some node) : toggles? doc n = togglesIn node.properties := by
  have kept : doc.property? n togglesName = valueUnder? node.properties togglesName := by simp [property?, found]
  rw [toggles?, kept]
  rfl

def rememberIn (change : Toggles → Toggles) (properties : List (String × Property)) : List (String × Property) :=
  putEntry togglesName (.toggles (change ((togglesIn properties).getD {}))) properties

theorem togglesIn_rememberIn (change : Toggles → Toggles) (properties : List (String × Property)) :
    togglesIn (rememberIn change properties) = some (change ((togglesIn properties).getD {})) := by
  rw [togglesIn, rememberIn, valueUnder?_putEntry, if_pos rfl]

variable (found : doc.node? n = some node)
include found

theorem edited_remember (change : Toggles → Toggles) :
    Edited doc (remember doc n change) n node { node with properties := rememberIn change node.properties } := by
  rw [remember, toggles?_of_node? found]
  exact edited_modifyNode found _

theorem edited_bindClass_written (name : String) (present : Bool) : Edited doc (bindClass doc n name present) n node
      { node with
        attributes := normalizeIn "class" normalClass (toggleClassIn name present node.attributes)
        properties := rememberIn (fun toggles => { toggles with classes := putEntry name present toggles.classes })
          node.properties } := by
  have remembered := edited_remember found fun toggles =>
    { toggles with classes := putEntry name present toggles.classes }
  have toggled := edited_toggleClass remembered.result name present
  have normal := edited_normalizeAttribute toggled.result "class" normalClass
  exact (remembered.trans toggled).trans normal

theorem edited_bindStyle_written (name : String) (value : Option String) :
    Edited doc (bindStyle doc n name value) n node
      { node with
        attributes := normalizeIn "style" normalStyle (setStyleIn name value node.attributes)
        properties := rememberIn (fun toggles => { toggles with styles := putEntry name value toggles.styles })
          node.properties } := by
  have remembered := edited_remember found fun toggles => { toggles with styles := putEntry name value toggles.styles }
  have set := edited_setStyle remembered.result name value
  have normal := edited_normalizeAttribute set.result "style" normalStyle
  exact (remembered.trans set).trans normal

theorem edited_bindClass (word : IsWord name) (present : Bool) : Edited doc (bindClass doc n name present) n node
      { node with
        attributes := withAttribute "class" (classText (toggled (classesIn node.attributes) name present)) node.attributes
        properties := rememberIn (fun toggles => { toggles with classes := putEntry name present toggles.classes })
          node.properties } := by
  have whole := edited_bindClass_written found name present
  rw [normalizeIn_toggleClassIn word] at whole
  exact whole

theorem edited_bindColor {tone : Option String} (closed : ∀ value ∈ tone, ';' ∉ value.toList)
    (only : OnlyColor node.attributes) :
    Edited doc (bindStyle doc n "color" tone) n node
      { node with
        attributes := withAttribute "style" (colorText tone) node.attributes
        properties := rememberIn (fun toggles => { toggles with styles := putEntry "color" tone toggles.styles })
          node.properties } := by
  have whole := edited_bindStyle_written found "color" tone
  have colored : setStyleIn "color" tone node.attributes = setColorIn tone node.attributes := rfl
  rw [colored, normalizeIn_setColorIn closed only] at whole
  exact whole

theorem edited_bindAttribute (value : String)
    (plain : togglesIn node.properties = none ∨ name ≠ "class" ∧ name ≠ "style") :
    Edited doc (bindAttribute doc n name (some value)) n node
      { node with attributes := putEntry name value node.attributes } := by
  have set : Edited doc (doc.setAttribute n name value) n node
      { node with attributes := putEntry name value node.attributes } := edited_modifyNode found _
  have kept := toggles?_of_node? set.result
  unfold bindAttribute
  dsimp only
  rw [kept]
  rcases plain with none | ⟨noClass, noStyle⟩
  · simp only [none]
    exact set
  · split
    · exact set
    · rw [if_neg noClass, if_neg noStyle]
      exact set

theorem edited_bindAttribute_class (value : String) {present : Bool} {toggles : Toggles} (word : IsWord name)
    (remembered : togglesIn node.properties = some toggles) (only : toggles.classes = [(name, present)]) :
    Edited doc (bindAttribute doc n "class" (some value)) n node
      { node with
        attributes := withAttribute "class" (classText (toggled (wordsOf value) name present)) node.attributes } := by
  have set : Edited doc (doc.setAttribute n "class" value) n node
      { node with attributes := putEntry "class" value node.attributes } := edited_modifyNode found _
  have toggled := edited_toggleClass set.result name present
  have normal := edited_normalizeAttribute toggled.result "class" normalClass
  have whole := (set.trans toggled).trans normal
  have names : classesIn (putEntry "class" value node.attributes) = wordsOf value := by
    simp [classesIn, valueUnder?_putEntry]
  rw [normalizeIn_toggleClassIn word, names, withAttribute_putEntry] at whole
  have same : bindAttribute doc n "class" (some value) =
      normalizeAttribute ((doc.setAttribute n "class" value).toggleClass n name present) n "class" normalClass := by
    unfold bindAttribute
    dsimp only
    rw [toggles?_of_node? set.result, remembered]
    simp [only]
  rw [same]
  exact whole

end Elements

end LiveMarkup.Live
