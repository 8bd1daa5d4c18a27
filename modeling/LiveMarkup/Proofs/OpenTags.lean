import LiveMarkup.Live.Server
import LiveMarkup.Proofs.Attributes
import LiveMarkup.Proofs.Outlines

/-!
The open tag of an element as the server's program prints it. The calls that it is printed by are taken apart into what
they say, and given the values of the code in them the whole tag is read back: of each name the first attribute counts,
what is known before what is computed, and whole classes and styles that toggles apply to last of all.
-/

namespace LiveMarkup.Codegen
open Blueprint Markup Live List Option ComputedAttributes

section Calls

variable {α β : Type}

inductive Base where
  | known (text : String)
  | computed (code : String)
  deriving Repr, DecidableEq

def Base.code : Base → String
  | .known text => stringLiteral text
  | .computed code => code

def baseOf (name : String) (known : Attributes) (computed : List ComputedAttribute) : Base :=
  computed.foldl (fun base entry =>
    match entry with
    | .whole n code => if n = name then .computed code else base
    | .spread _ => base) (((known.reverse.find? (·.1 == name)).map fun entry => .known entry.2).getD (.known ""))

theorem code_baseOf (name : String) (known : Attributes) (computed : List ComputedAttribute) :
    (baseOf name known computed).code = baseCode name known computed := by
  unfold baseOf baseCode
  refine (foldl_hom Base.code fun base entry => ?_).symm.trans (congrArg (foldl _ · computed) ?_)
  · cases entry with
    | whole n code => exact (apply_ite Base.code (n = name) (.computed code) base).symm
    | spread => rfl
  · cases known.reverse.find? (·.1 == name) <;> rfl

inductive ServerCall where
  | whole (name code : String)
  | spread (code : String)
  | classes (base : Base) (toggles : List (String × String))
  | styles (base : Base) (properties : List (String × String))
  deriving Repr

def called (function : String) (arguments : List String) : String :=
  "__" ++ function ++ "(" ++ ", ".intercalate arguments ++ ")"

def ServerCall.render : ServerCall → String
  | .whole name code => called "ssr_attr" [stringLiteral name, code]
  | .spread code => called "ssr_spread" [code]
  | .classes base toggles =>
    called "classes" [base.code, pairs (toggles.map fun (name, code) => (name, called "truthy" [code]))]
  | .styles base properties =>
    called "styles" [base.code, pairs (properties.map fun (name, code) => (name, called "attribute_value" [code]))]

/-- Whether toggles apply to an attribute, so that it is not written as it is. -/
def replaced (attributes : List Attribute) (name : String) : Bool :=
  (name == "class" && !(ComputedAttributes.ofAttributes attributes).classes.isEmpty) ||
    (name == "style" && !(ComputedAttributes.ofAttributes attributes).styles.isEmpty)

def knownOf (attributes : List Attribute) : Attributes := (StaticAttributes.ofAttributes attributes).merged

def wholeCall? (attributes : List Attribute) : ComputedAttribute → Option ServerCall
  | .whole name code => if replaced attributes name then none else some (.whole name code)
  | .spread code => some (.spread code)

def serverCalls (attributes : List Attribute) : List ServerCall :=
  let computed := ComputedAttributes.ofAttributes attributes
  computed.attributes.filterMap (wholeCall? attributes) ++
    (if computed.classes.isEmpty then []
      else [.classes (baseOf "class" (knownOf attributes) computed.attributes) computed.classes]) ++
    if computed.styles.isEmpty then []
      else [.styles (baseOf "style" (knownOf attributes) computed.attributes) computed.styles]

theorem gives_mapM {f : α → Gen β} {g : α → β} (each : ∀ a, Gives (f a) (· = g a)) (items : List α) :
    Gives (items.mapM f) (· = items.map g) := by
  induction items with
  | nil => exact gives_pure rfl
  | cons a _ ih =>
    rw [mapM_cons]
    refine (each a).bind fun b first => ih.bind fun bs later => gives_pure ?_
    rw [first, later, map_cons]

theorem gives_filterMapM_eq {f : α → Gen (Option β)} {g : α → Option β} (each : ∀ a, Gives (f a) (· = g a)) (items : List α) :
    Gives (items.filterMapM f) (· = items.filterMap g) := by
  induction items with
  | nil => exact gives_pure rfl
  | cons a _ ih =>
    rw [filterMapM_cons]
    refine (each a).bind fun made first => ?_
    rw [filterMap_cons, ← first]
    cases made with
    | none => exact ih
    | some => exact ih.bind fun others later => gives_pure (by rw [later])

theorem gives_toggleCall (name function convert : String) (known : Attributes) (computed : List ComputedAttribute)
    (toggles : List (String × String)) : Gives (toggleCall name function convert known computed toggles) (· =
      if toggles.isEmpty then []
      else [called function [(baseOf name known computed).code,
        pairs (toggles.map fun (name, code) => (name, called convert [code]))]]) := by
  unfold toggleCall
  split
  · exact gives_pure rfl
  · have converted : ∀ toggle : String × String, Gives (do return (toggle.1, ← call convert [toggle.2]))
        (· = (toggle.1, called convert [toggle.2])) := fun toggle =>
      (gives_call convert [toggle.2]).bind fun made same => gives_pure (by rw [same]; rfl)
    refine (gives_mapM converted toggles).bind fun pairs same => (gives_call _ _).bind fun code written => gives_pure ?_
    rw [written, same, ← code_baseOf]
    rfl

theorem serverOpenTag_calls (element : Blueprint.Element) (attrs : List Attribute) :
    Gives (serverOpenTag element attrs) (· =
      .markup ("<" ++ element.tag ++
          String.join (((knownOf attrs).filter fun entry => !replaced attrs entry.1).map renderAttribute)) ::
        (serverCalls attrs).map (fun call => .part call.render) ++ [.markup ">"]) := by
  have wholes : ∀ entry, Gives (wholeCall (replaced attrs) entry)
      (· = (wholeCall? attrs entry).map ServerCall.render) := fun entry => by
    cases entry with
    | whole _ code =>
      dsimp only [wholeCall?, wholeCall]
      split
      · exact gives_pure rfl
      · exact (gives_call _ _).bind fun code same => gives_pure (congrArg some same)
    | spread code => exact (gives_call _ _).bind fun code same => gives_pure (congrArg some same)
  refine (gives_filterMapM_eq wholes _).bind fun made first => (gives_toggleCall _ _ _ _ _ _).bind fun classes second =>
    (gives_toggleCall _ _ _ _ _ _).bind fun styles third => gives_pure ?_
  have rendered : made ++ classes ++ styles = (serverCalls attrs).map ServerCall.render := by
    rw [serverCalls, map_append, map_append, map_filterMap, first, second, third]
    congr 1
    · congr 1
      split <;> rfl
    · split <;> rfl
  rw [rendered, List.map_map]
  rfl

end Calls

section Printing

variable {γ τ α : Type}

def optional (name : String) (value : Option String) : Attributes := value.toList.map fun text => (name, text)

def written (attributes : Attributes) : String := String.join (attributes.map renderAttribute)

theorem written_append (first second : Attributes) : written (first ++ second) = written first ++ written second := by
  rw [written, map_append, String.join_append]
  rfl

theorem attributeMarkup_eq (name : String) (value : Option String) :
    attributeMarkup name value = written (optional name value) := by
  cases value with
  | none => rfl
  | some => simp [attributeMarkup, written, optional, renderAttribute, String.join_cons]

def mergedClass (base : Option String) (toggles : List (String × Bool)) : Option String :=
  classText (toggles.foldl (fun names (name, present) => Document.toggled names name present) (Text.wordsOf (base.getD "")))

def mergedStyle (base : Option String) (properties : List (String × Option String)) : Option String :=
  styleText (properties.foldl (fun declarations (name, value) =>
    match value with
    | some value => putEntry name value declarations
    | none => removeFirst name declarations) (Style.parse (base.getD "")))

theorem classesMarkup_eq (base : Option String) (toggles : List (String × Bool)) :
    classesMarkup base toggles = written (optional "class" (mergedClass base toggles)) := by
  rw [← attributeMarkup_eq, mergedClass, classesMarkup]
  generalize foldl _ _ _ = names
  cases names <;> rfl

theorem stylesMarkup_eq (base : Option String) (properties : List (String × Option String)) :
    stylesMarkup base properties = written (optional "style" (mergedStyle base properties)) := by
  rw [← attributeMarkup_eq, mergedStyle, stylesMarkup, styleText]
  generalize foldl _ _ _ = decls
  cases decls <;> rfl

def spreadOf (entries : List (String × Datum)) : SpreadMarkup :=
  (entries.filter fun entry => !Props.isClientOnly entry.1).foldl (fun spread entry => spread.add entry.1 entry.2.entryText?) {}

theorem foldlM_given {σ β : Type} {step : σ → β → LiveProgram γ τ σ} {given : α → β} (next : σ → α → σ)
    (asks : ∀ state a, step state (given a) = pure (next state a)) (items : List α) (state : σ) :
    (items.map given).foldlM step state = pure (items.foldl next state) := by
  induction items generalizing state with
  | nil => rfl
  | cons _ _ ih =>
    rw [map_cons, foldlM_cons, asks]
    exact ih _

theorem spreadMarkup_given (entries : List (String × Datum)) :
    (spreadMarkup (entries.map fun entry => (entry.1, .value entry.2)) : LiveProgram γ τ String) =
      pure (spreadOf entries).render := by
  unfold spreadMarkup spreadOf
  rw [List.filter_map]
  have rendered : ∀ {result : LiveProgram γ τ SpreadMarkup} {spread : SpreadMarkup}, result = pure spread →
      (result >>= fun spread => pure spread.render) = pure spread.render := by
    rintro _ _ rfl
    rfl
  refine rendered (foldlM_given _ ?_ _ _)
  exact fun _ _ => rfl

/-- Whether an entry of props stands for an attribute of its name, other than `class` and `style`. -/
def isPlainKey (name : String) : Bool :=
  !Props.isClientOnly name && (Props.afterStart? "class:" name).isNone && (Props.afterStart? "style:" name).isNone &&
    name != "class" && name != "style"

def spreadAttributes (entries : List (String × Datum)) : Attributes :=
  let spread := spreadOf entries
  (entries.filter fun entry => isPlainKey entry.1).flatMap (fun entry => optional entry.1 entry.2.entryText?) ++
    optional "class" (if spread.classes.isEmpty then spread.classBase else mergedClass spread.classBase spread.classes) ++
    optional "style" (if spread.styles.isEmpty then spread.styleBase else mergedStyle spread.styleBase spread.styles)

theorem plain_add (spread : SpreadMarkup) {name : String} (markup : Props.isClientOnly name = false) (value : Option String) :
    (spread.add name value).plain = spread.plain ++ written (if isPlainKey name then optional name value else []) := by
  have nothing : written [] = "" := rfl
  unfold SpreadMarkup.add isPlainKey
  rw [markup]
  cases toggle : Props.afterStart? "class:" name with
  | some => simp [nothing]
  | none =>
    cases property : Props.afterStart? "style:" name with
    | some => simp [nothing]
    | none =>
      by_cases whole : name = "class"
      · simp [whole, nothing]
      · by_cases style : name = "style"
        · simp [style, nothing]
        · simp [whole, style, attributeMarkup_eq]

theorem plain_spreadOf (entries : List (String × Datum)) : (spreadOf entries).plain =
    written ((entries.filter fun entry => isPlainKey entry.1).flatMap fun entry => optional entry.1 entry.2.entryText?) := by
  have folded : ∀ (entries : List (String × Datum)) (spread : SpreadMarkup),
      ((entries.filter fun entry => !Props.isClientOnly entry.1).foldl
        (fun spread entry => spread.add entry.1 entry.2.entryText?) spread).plain =
      spread.plain ++
        written ((entries.filter fun entry => isPlainKey entry.1).flatMap fun entry => optional entry.1 entry.2.entryText?) := by
    intro entries
    induction entries with
    | nil => exact fun spread => (String.append_empty).symm
    | cons entry _ ih =>
      intro spread
      cases markup : Props.isClientOnly entry.1 with
      | true =>
        have other : isPlainKey entry.1 = false := by simp [isPlainKey, markup]
        rw [filter_cons_of_neg (by simp [markup]), filter_cons_of_neg (by simp [other])]
        exact ih spread
      | false =>
        rw [filter_cons_of_pos (by simp [markup]), foldl_cons, ih, plain_add spread markup, String.append_assoc,
          ← written_append, filter_cons]
        cases isPlainKey entry.1 <;> rfl
  exact (folded entries {}).trans String.empty_append

theorem render_spreadOf (entries : List (String × Datum)) : (spreadOf entries).render = written (spreadAttributes entries) := by
  unfold SpreadMarkup.render spreadAttributes
  rw [written_append, written_append, ← plain_spreadOf]
  congr 1
  · congr 1
    split
    · exact attributeMarkup_eq _ _
    · exact classesMarkup_eq _ _
  · split
    · exact attributeMarkup_eq _ _
    · exact stylesMarkup_eq _ _

/-- What the code in an open tag is worth when it runs: a value as an attribute, or the entries of props. -/
structure Values where
  text : String → Option String
  entries : String → List (String × Datum)

def Base.value (values : Values) : Base → Option String
  | .known text => some text
  | .computed code => values.text code

def ServerCall.print (values : Values) : ServerCall → String
  | .whole name code => attributeMarkup name (values.text code)
  | .spread code => (spreadOf (values.entries code)).render
  | .classes base toggles =>
    classesMarkup (base.value values) (toggles.map fun (name, code) => (name, (values.text code).isSome))
  | .styles base properties =>
    stylesMarkup (base.value values) (properties.map fun (name, code) => (name, values.text code))

def ServerCall.entries (values : Values) : ServerCall → Attributes
  | .whole name code => optional name (values.text code)
  | .spread code => spreadAttributes (values.entries code)
  | .classes base toggles => optional "class"
    (mergedClass (base.value values) (toggles.map fun (name, code) => (name, (values.text code).isSome)))
  | .styles base properties => optional "style"
    (mergedStyle (base.value values) (properties.map fun (name, code) => (name, values.text code)))

theorem ServerCall.print_eq (values : Values) (call : ServerCall) : call.print values = written (call.entries values) := by
  cases call with
  | whole name => exact attributeMarkup_eq name _
  | spread => exact render_spreadOf _
  | classes => exact classesMarkup_eq _ _
  | styles => exact stylesMarkup_eq _ _

def printedAttributes (values : Values) (attributes : List Attribute) : Attributes :=
  (knownOf attributes).filter (fun entry => !replaced attributes entry.1) ++
    (serverCalls attributes).flatMap (ServerCall.entries values)

/-- The open tag that the server's program prints: its pieces with what the calls give between them. -/
def serverTag (values : Values) (element : Blueprint.Element) (attributes : List Attribute) (context : Context) : String :=
  interleave (fragments (serverOpenTag element attributes context).1) ((serverCalls attributes).map (ServerCall.print values))

theorem interleave_fragmentsFrom (start finish : String) (code print : α → String) (items : List α) :
    Live.interleave (fragmentsFrom start (items.map (fun item => .part (code item)) ++ [.markup finish])) (items.map print) =
      start ++ String.join (items.map print) ++ finish := by
  induction items generalizing start with
  | nil => simp [fragmentsFrom, Live.interleave]
  | cons _ _ ih =>
    rw [map_cons, cons_append, fragmentsFrom, map_cons, Live.interleave, ih, String.join_cons]
    simp [String.append_assoc]

theorem serverTag_eq (values : Values) (element : Blueprint.Element) (attrs : List Attribute) (context : Context) :
    serverTag values element attrs context = "<" ++ element.tag ++ written (printedAttributes values attrs) ++ ">" := by
  have printed : String.join ((serverCalls attrs).map (ServerCall.print values)) =
      written ((serverCalls attrs).flatMap (ServerCall.entries values)) := by
    induction serverCalls attrs with
    | nil => rfl
    | cons call _ ih => rw [map_cons, String.join_cons, ih, call.print_eq, flatMap_cons, written_append]
  rw [serverTag, serverOpenTag_calls element attrs context, fragments, cons_append, fragmentsFrom,
    interleave_fragmentsFrom, printed, printedAttributes, written_append]
  simp only [String.empty_append, String.append_assoc]
  rfl

end Printing

variable {entries : List (String × α)}

section Reading

variable {name : String} {α : Type}

def tagAttributes? (markup : String) : Option Attributes :=
  match markup.toList with
  | [] => none
  | c :: cs =>
    match Piece.next? c cs with
    | some (.startTag _ attributes _, _) => some attributes
    | some (.rawElement _ attributes _, _) => some attributes
    | _ => none

theorem tagAttributes?_written {tag : String} (name : ReadableTag tag) {attrs : Attributes}
    (names : ReadableNames attrs) :
    tagAttributes? ("<" ++ tag ++ written attrs ++ ">") = some (addAttributes [] attrs) := by
  have found := next?_startTag Entity.escaping_allMarks (by decide) name names []
  rw [tagAttributes?, written, toList_openTag, openChars, append_assoc, cons_append]
  dsimp only
  rw [found]
  cases Element.isRawText tag <;> rfl

theorem valueUnder?_cons (entry : String × α) (entries : List (String × α)) (name : String) :
    valueUnder? (entry :: entries) name = if entry.1 = name then some entry.2 else valueUnder? entries name := by
  by_cases same : entry.1 = name <;> simp [valueUnder?, same]

theorem valueUnder?_of_not_mem (absent : name ∉ entries.map Prod.fst) : valueUnder? entries name = none := by
  simp only [valueUnder?, map_eq_none_iff, find?_eq_none, beq_iff_eq]
  exact fun entry mem same => absent (mem_map.mpr ⟨entry, mem, same⟩)

theorem valueUnder?_append (first second : List (String × α)) (name : String) :
    valueUnder? (first ++ second) name = (valueUnder? first name).or (valueUnder? second name) := by
  rw [valueUnder?, find?_append, map_or]
  rfl

theorem valueUnder?_addAttribute (before : Attributes) (added value : String) (named : name ≠ "") :
    valueUnder? (Piece.addAttribute before added value) name =
      (valueUnder? before name).or (valueUnder? [(added, value)] name) := by
  unfold Piece.addAttribute
  split
  · rename_i dropped
    by_cases same : added = name
    · subst same
      have taken : before.any (·.1 == added) = true := by simpa [named] using dropped
      have found : (valueUnder? before added).isSome := by
        simpa [valueUnder?] using taken
      rw [or_of_isSome found]
    · have missing : valueUnder? [(added, value)] name = none := by simp [valueUnder?, same]
      rw [missing, or_none]
  · exact valueUnder?_append before _ name

theorem valueUnder?_addAttributes (before attrs : Attributes) (named : name ≠ "") :
    valueUnder? (addAttributes before attrs) name = valueUnder? (before ++ attrs) name := by
  induction attrs generalizing before with
  | nil => rw [append_nil]; rfl
  | cons _ _ ih =>
    rw [addAttributes, foldl_cons, ← addAttributes, ih, valueUnder?_append, valueUnder?_addAttribute before _ _ named,
      Option.or_assoc, ← valueUnder?_append, ← valueUnder?_append]
    rfl

theorem valueUnder?_optional (name : String) (value : Option String) (other : String) :
    valueUnder? (optional name value) other = if name = other then value else none := by
  cases value with
  | none => simp [optional, valueUnder?]
  | some => by_cases same : name = other <;> simp [optional, valueUnder?, same]

theorem valueUnder?_filter (entries : List (String × α)) (kept : String → Bool) (name : String) :
    valueUnder? (entries.filter fun entry => kept entry.1) name = if kept name then valueUnder? entries name else none := by
  induction entries with
  | nil => exact (ite_self none).symm
  | cons entry _ ih =>
    rw [filter_cons, valueUnder?_cons]
    by_cases found : entry.1 = name
    · subst found
      cases here : kept entry.1 with
      | true => simp [valueUnder?_cons]
      | false => simp [ih, here]
    · rw [if_neg found, ← ih]
      split
      · rw [valueUnder?_cons, if_neg found]
      · rfl

end Reading

section Lookups

variable {attrs : List Attribute} {name : String}
variable {other base : Option String} {all : List Attribute} {values : Values} {α : Type}

/-- What an attribute that is computed gives a name, one value for each time that it says something. -/
def assigned (values : Values) (name : String) : Attribute → List (Option String)
  | .value .plain n given _ => if given.dynamic && n == name then [values.text given.code] else []
  | .spread code _ => ((values.entries code).filter (·.1 == name)).map (·.2.entryText?)
  | _ => []

def assignments (values : Values) (name : String) (attributes : List Attribute) : List (Option String) :=
  attributes.flatMap (assigned values name)

theorem valueUnder?_spreadAttributes (entries : List (String × Datum)) (plain : isPlainKey name = true) :
    valueUnder? (spreadAttributes entries) name =
      ((entries.filter (·.1 == name)).map (·.2.entryText?)).findSome? id := by
  have others : "class" ≠ name ∧ "style" ≠ name := by
    constructor <;> rintro rfl <;> exact absurd plain (by decide)
  have firsts : valueUnder? ((entries.filter fun entry => isPlainKey entry.1).flatMap fun entry =>
      optional entry.1 entry.2.entryText?) name = ((entries.filter (·.1 == name)).map (·.2.entryText?)).findSome? id := by
    induction entries with
    | nil => rfl
    | cons entry _ ih =>
      by_cases same : entry.1 = name
      · rw [filter_cons_of_pos (by simpa [same] using plain), filter_cons_of_pos (by simp [same]), flatMap_cons,
          valueUnder?_append, valueUnder?_optional, if_pos same, ih, map_cons, findSome?_cons]
        cases entry.2.entryText? <;> rfl
      · rw [filter_cons, @filter_cons_of_neg _ (·.1 == name) entry _ (by simpa using same)]
        split
        · rw [flatMap_cons, valueUnder?_append, valueUnder?_optional, if_neg same, ih, none_or]
        · exact ih
  rw [spreadAttributes, valueUnder?_append, valueUnder?_append, valueUnder?_optional, valueUnder?_optional, if_neg others.1,
    if_neg others.2, or_none, or_none, firsts]

def wholeEntries (values : Values) (all : List Attribute) : Attribute → Attributes
  | .value .plain name given _ =>
    if given.dynamic && !replaced all name then optional name (values.text given.code) else []
  | .spread code _ => spreadAttributes (values.entries code)
  | _ => []

theorem flatMap_wholeEntries (values : Values) (all attrs : List Attribute) :
    ((ofAttributes attrs).attributes.filterMap (wholeCall? all)).flatMap (ServerCall.entries values) =
      attrs.flatMap (wholeEntries values all) := by
  unfold ofAttributes
  rw [filterMap_filterMap]
  induction attrs with
  | nil => rfl
  | cons entry _ ih =>
    rw [flatMap_cons, ← ih, filterMap_cons]
    cases entry with
    | value kind name given =>
      cases kind with
      | plain => cases dynamic : given.dynamic <;> cases gone : replaced all name <;>
          simp [wholeEntries, dynamic, gone, wholeCall?, ServerCall.entries]
      | _ => rfl
    | _ => rfl

theorem valueUnder?_flatMap {β : Type} (f : α → List (String × β)) (items : List α) (name : String) :
    valueUnder? (items.flatMap f) name = items.findSome? fun item => valueUnder? (f item) name := by
  induction items with
  | nil => rfl
  | cons item _ ih =>
    rw [flatMap_cons, valueUnder?_append, ih, findSome?_cons]
    cases valueUnder? (f item) name <;> rfl

theorem valueUnder?_wholeEntries (values : Values) (kept : replaced all name = false)
    (keys : ∀ code span, .spread code span ∈ attrs → isPlainKey name = true) :
    valueUnder? (attrs.flatMap (wholeEntries values all)) name = (assignments values name attrs).findSome? id := by
  have each : ∀ entry ∈ attrs,
      valueUnder? (wholeEntries values all entry) name = (assigned values name entry).findSome? id := by
    intro entry mem
    cases entry with
    | value kind n given =>
      cases kind with
      | plain =>
        by_cases same : n = name
        · subst same
          cases dynamic : given.dynamic with
          | false => simp [wholeEntries, assigned, dynamic, valueUnder?]
          | true => simp [wholeEntries, assigned, dynamic, kept, valueUnder?_optional]
        · have elsewhere := valueUnder?_optional n (values.text given.code) name
          rw [if_neg same] at elsewhere
          rw [wholeEntries, assigned, beq_false_of_ne same, Bool.and_false]
          split
          · exact elsewhere
          · rfl
      | _ => rfl
    | spread code span => exact valueUnder?_spreadAttributes (values.entries code) (keys code span mem)
    | _ => rfl
  rw [assignments]
  clear keys
  induction attrs with
  | nil => rfl
  | cons entry _ ih =>
    rw [flatMap_cons, flatMap_cons, valueUnder?_append, findSome?_append, each entry mem_cons_self,
      ih fun other mem => each other (mem_cons_of_mem entry mem)]

theorem valueUnder?_wholeEntries_replaced (values : Values) (gone : replaced all name = true)
    (noSpread : ∀ code span, .spread code span ∉ attrs) :
    valueUnder? (attrs.flatMap (wholeEntries values all)) name = none := by
  rw [valueUnder?_flatMap, findSome?_eq_none_iff]
  intro entry mem
  cases entry with
  | value kind =>
    cases kind with
    | plain =>
      rw [wholeEntries]
      split
      · rename_i printed
        rw [valueUnder?_optional, if_neg]
        rintro rfl
        simp [gone] at printed
      · rfl
    | _ => rfl
  | spread code span => exact absurd mem (noSpread code span)
  | _ => rfl

def toggledClass (values : Values) (attributes : List Attribute) : Option String :=
  let computed := ComputedAttributes.ofAttributes attributes
  mergedClass ((baseOf "class" (knownOf attributes) computed.attributes).value values)
    (computed.classes.map fun (name, code) => (name, (values.text code).isSome))

def toggledStyle (values : Values) (attributes : List Attribute) : Option String :=
  let computed := ComputedAttributes.ofAttributes attributes
  mergedStyle ((baseOf "style" (knownOf attributes) computed.attributes).value values)
    (computed.styles.map fun (name, code) => (name, values.text code))

theorem printedAttributes_eq (values : Values) (attrs : List Attribute) : printedAttributes values attrs =
    (knownOf attrs).filter (fun entry => !replaced attrs entry.1) ++ attrs.flatMap (wholeEntries values attrs) ++
      (if (ofAttributes attrs).classes.isEmpty then []
        else optional "class" (toggledClass values attrs)) ++
      if (ofAttributes attrs).styles.isEmpty then []
        else optional "style" (toggledStyle values attrs) := by
  rw [printedAttributes, serverCalls, flatMap_append, flatMap_append, flatMap_wholeEntries, ← append_assoc,
    ← append_assoc]
  congr 1
  congr 1
  · split
    · rfl
    · exact append_nil _
  · split
    · rfl
    · exact append_nil _

theorem valueUnder?_class_part (attrs : List Attribute) (value : Option String)
    (kept : replaced attrs name = false ∨ name ≠ "class") :
    valueUnder? (if (ofAttributes attrs).classes.isEmpty then [] else optional "class" value) name =
      none := by
  split
  · rfl
  · rename_i some
    rw [valueUnder?_optional, if_neg]
    rintro rfl
    simp [replaced, some] at kept

theorem valueUnder?_style_part (attrs : List Attribute) (value : Option String)
    (kept : replaced attrs name = false ∨ name ≠ "style") :
    valueUnder? (if (ofAttributes attrs).styles.isEmpty then [] else optional "style" value) name =
      none := by
  split
  · rfl
  · rename_i some
    rw [valueUnder?_optional, if_neg]
    rintro rfl
    simp [replaced, some] at kept

theorem valueUnder?_printed (values : Values) (kept : replaced attrs name = false)
    (keys : ∀ code span, .spread code span ∈ attrs → isPlainKey name = true) :
    valueUnder? (printedAttributes values attrs) name =
      (valueUnder? (knownOf attrs) name).or ((assignments values name attrs).findSome? id) := by
  rw [printedAttributes_eq, valueUnder?_append, valueUnder?_append, valueUnder?_append,
    valueUnder?_class_part attrs _ (.inl kept), valueUnder?_style_part attrs _ (.inl kept), or_none,
    or_none, valueUnder?_wholeEntries values kept keys, valueUnder?_filter _ (!replaced attrs ·), kept]
  rfl

theorem valueUnder?_printed_class (values : Values) (toggles : (ofAttributes attrs).classes.isEmpty = false)
    (noSpread : ∀ code span, .spread code span ∉ attrs) :
    valueUnder? (printedAttributes values attrs) "class" = toggledClass values attrs := by
  have gone : replaced attrs "class" = true := by simp [replaced, toggles]
  rw [printedAttributes_eq, valueUnder?_append, valueUnder?_append, valueUnder?_append,
    valueUnder?_style_part attrs _ (.inr (by decide)), valueUnder?_wholeEntries_replaced values gone noSpread,
    valueUnder?_filter _ (!replaced attrs ·), gone, toggles]
  simp [valueUnder?_optional]

theorem valueUnder?_printed_style (values : Values) (toggles : (ofAttributes attrs).styles.isEmpty = false)
    (noSpread : ∀ code span, .spread code span ∉ attrs) :
    valueUnder? (printedAttributes values attrs) "style" = toggledStyle values attrs := by
  have gone : replaced attrs "style" = true := by simp [replaced, toggles]
  rw [printedAttributes_eq, valueUnder?_append, valueUnder?_append, valueUnder?_append,
    valueUnder?_class_part attrs _ (.inr (by decide)), valueUnder?_wholeEntries_replaced values gone noSpread,
    valueUnder?_filter _ (!replaced attrs ·), gone, toggles]
  simp [valueUnder?_optional]

def lastOf (initial : Option String) (given : List (Option String)) : Option String :=
  given.foldl (fun _ value => value) initial

theorem valueUnder?_reverse (once : (entries.map Prod.fst).Nodup) (name : String) :
    valueUnder? entries.reverse name = valueUnder? entries name := by
  induction entries with
  | nil => rfl
  | cons _ _ ih =>
    obtain ⟨absent, once⟩ := nodup_cons.mp once
    rw [reverse_cons, valueUnder?_append, ih once, valueUnder?_cons, valueUnder?_cons]
    split
    · rename_i here
      rw [valueUnder?_of_not_mem (here ▸ absent), none_or]
    · exact or_none

theorem value_baseOf (values : Values) {known : Attributes} (name : String) (once : (known.map Prod.fst).Nodup)
    (noSpread : ∀ code span, .spread code span ∉ attrs) :
    ((baseOf name known (ofAttributes attrs).attributes).value values).getD "" =
      (lastOf (valueUnder? known name) (assignments values name attrs)).getD "" := by
  have folded : ∀ (base : Base) (initial : Option String), (base.value values).getD "" = initial.getD "" →
      (((ofAttributes attrs).attributes.foldl (fun base entry =>
        match entry with
        | .whole n code => if n = name then .computed code else base
        | .spread _ => base) base).value values).getD "" = (lastOf initial (assignments values name attrs)).getD "" := by
    unfold assignments lastOf ofAttributes
    induction attrs with
    | nil => exact fun _ _ same => same
    | cons entry _ ih =>
      intro base initial same
      have later := ih fun code span mem => noSpread code span (mem_cons_of_mem entry mem)
      rw [flatMap_cons, foldl_append]
      cases entry with
      | value kind n given =>
        cases kind with
        | plain =>
          cases dynamic : given.dynamic with
          | false =>
            simp only [filterMap_cons, dynamic, assigned, Bool.false_and]
            exact later base initial same
          | true =>
            simp only [filterMap_cons, dynamic, assigned, Bool.true_and, if_true, foldl_cons]
            by_cases here : n = name
            · simp only [here, if_true, beq_self_eq_true, foldl_cons, foldl_nil]
              exact later _ _ rfl
            · simp only [here, if_false, beq_false_of_ne here]
              exact later base initial same
        | _ => exact later base initial same
      | spread code span => exact absurd mem_cons_self (noSpread code span)
      | _ => exact later base initial same
  refine folded _ _ ?_
  have found : (known.reverse.find? (·.1 == name)).map Prod.snd = valueUnder? known name := valueUnder?_reverse once name
  rw [← found]
  cases known.reverse.find? (·.1 == name) <;> rfl

theorem mergedClass_congr (same : base.getD "" = other.getD "") (toggles : List (String × Bool)) :
    mergedClass base toggles = mergedClass other toggles := by
  rw [mergedClass, same, mergedClass]

theorem mergedStyle_congr (same : base.getD "" = other.getD "") (properties : List (String × Option String)) :
    mergedStyle base properties = mergedStyle other properties := by
  rw [mergedStyle, same, mergedStyle]

theorem readableNames_optional (readable : ∀ c ∈ name.toList, Piece.isNameChar c) (value : Option String) :
    ReadableNames (optional name value) := by
  intro entry mem
  obtain ⟨_, _, rfl⟩ := mem_map.mp mem
  exact readable

/-- The names of the entries that are spread over an element can be read. -/
def Values.Legible (values : Values) (attributes : List Attribute) : Prop :=
  ∀ code span, .spread code span ∈ attributes → ∀ entry ∈ values.entries code, ∀ c ∈ entry.1.toList, Piece.isNameChar c

theorem readableNames_printed (lettered : ∀ entry ∈ attrs, entry.Lettered) (legible : values.Legible attrs) :
    ReadableNames (printedAttributes values attrs) := by
  have classes : ∀ c ∈ "class".toList, Piece.isNameChar c := all_eq_true.mp (by decide)
  have styles : ∀ c ∈ "style".toList, Piece.isNameChar c := all_eq_true.mp (by decide)
  have known : ReadableNames ((knownOf attrs).filter fun entry => !replaced attrs entry.1) := fun entry mem =>
    readableNames_merged lettered entry (mem_of_mem_filter mem)
  have wholes : ReadableNames (attrs.flatMap (wholeEntries values attrs)) := by
    intro printed mem
    obtain ⟨entry, member, mem⟩ := mem_flatMap.mp mem
    cases entry with
    | value kind =>
      cases kind with
      | plain =>
        rw [wholeEntries] at mem
        split at mem
        · exact readableNames_optional (fun c letter => isNameChar_of_isNamePart (lettered _ member c letter)) _ _ mem
        · cases mem
      | _ => cases mem
    | spread code span =>
      rw [wholeEntries, spreadAttributes] at mem
      rcases mem_append.mp mem with mem | mem
      · rcases mem_append.mp mem with mem | mem
        · obtain ⟨key, among, mem⟩ := mem_flatMap.mp mem
          exact readableNames_optional (legible code span member key (mem_of_mem_filter among)) _ _ mem
        · exact readableNames_optional classes _ _ mem
      · exact readableNames_optional styles _ _ mem
    | _ => cases mem
  rw [printedAttributes_eq]
  refine readableNames_append (readableNames_append (readableNames_append known wholes) ?_) ?_
  · split
    · exact forall_mem_nil _
    · exact readableNames_optional classes _
  · split
    · exact forall_mem_nil _
    · exact readableNames_optional styles _

theorem tagAttributes?_serverTag {element : Blueprint.Element} (name : ReadableTag element.tag)
    (lettered : ∀ entry ∈ attrs, entry.Lettered) (legible : values.Legible attrs) (context : Context) :
    tagAttributes? (serverTag values element attrs context) =
      some (addAttributes [] (printedAttributes values attrs)) := by
  rw [serverTag_eq]
  exact tagAttributes?_written name (readableNames_printed lettered legible)

end Lookups

end LiveMarkup.Codegen
