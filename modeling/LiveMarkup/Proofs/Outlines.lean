import LiveMarkup.Codegen.Server
import LiveMarkup.Proofs.ClientPrograms

/-!
The programs of client and server follow one outline of a template: its tags, its texts and the places of the children that
are only known when they run. The client writes the outline as it is. The server leaves out the classes and styles that it
computes, and breaks off wherever something is computed.
-/

namespace LiveMarkup.Codegen
open Blueprint Markup List

def togglesClasses (attributes : List Attribute) : Bool :=
  attributes.any fun
    | .value .toggle _ given _ => given.dynamic
    | _ => false

/-- Whether a style property of an element, or a custom one, is only known when it runs. -/
def togglesStyles (attributes : List Attribute) : Bool :=
  attributes.any fun
    | .value .style _ given _ => given.dynamic
    | .value .customProperty _ given _ => given.dynamic
    | _ => false

inductive Token where
  /-- An open tag with the attributes that are known, and whether classes and styles are toggled. -/
  | start (tag : String) (attributes : Attributes) (classes styles : Bool)
  | finish (tag : String)
  | text (data : String)
  /-- A child that is only known when it runs; `marked` says that a marker stands before it. -/
  | region (marked : Bool) (child : Node)

namespace Token

def written : Token → String
  | .start tag attributes _ _ => "<" ++ tag ++ String.join (attributes.map renderAttribute) ++ ">"
  | .finish tag => "</" ++ tag ++ ">"
  | .text data => Entity.escapeAll data
  | .region marked _ => if marked then "<!--$-->" else ""

/-- Without the known `class` where classes are toggled, and without the known `style` where styles are. -/
def stripped : Token → Token
  | .start tag attributes classes styles =>
    .start tag (attributes.filter fun entry => !((entry.1 == "class" && classes) || (entry.1 == "style" && styles)))
      classes styles
  | token => token

def region? : Token → Option (Bool × Node)
  | .region marked child => some (marked, child)
  | _ => none

end Token

def writtenAll (tokens : List Token) : String := String.join (tokens.map Token.written)

/-- The children that are only known when they run, in order, and whether each is marked. -/
def regions (tokens : List Token) : List (Bool × Node) := tokens.filterMap Token.region?

def openTag (element : Blueprint.Element) (attributes : List Attribute) : Token :=
  .start element.tag (StaticAttributes.ofAttributes attributes).merged (togglesClasses attributes) (togglesStyles attributes)

def closeTag (element : Blueprint.Element) : List Token := if element.isVoid then [] else [.finish element.tag]

mutual

/-- The outline of a node; `several` says that it is not the only child. -/
def outline (several : Bool) : Node → List Token
  | .text data => [.text data]
  | .expression given span => if given.dynamic then [.region several (.expression given span)] else [.text given.shown]
  | .component component attributes slot => [.region several (.component component attributes slot)]
  | .element element attributes children =>
    openTag element attributes :: outlineAll (1 < children.length) children ++ closeTag element

def outlineAll (several : Bool) : List Node → List Token
  | [] => []
  | node :: rest => outline several node ++ outlineAll several rest

end

mutual

def Counted : Node → Prop
  | .text _ => True
  | .expression _ _ => True
  | .component _ _ _ => True
  | .element element _ children => element.childCount = children.length ∧ CountedAll children

def CountedAll : List Node → Prop
  | [] => True
  | node :: rest => Counted node ∧ CountedAll rest

end

theorem writtenAll_append (first second : List Token) : writtenAll (first ++ second) = writtenAll first ++ writtenAll second := by
  simp [writtenAll]

theorem regions_append (first second : List Token) : regions (first ++ second) = regions first ++ regions second :=
  filterMap_append

section Client

variable {element : Blueprint.Element} {statement : Statement}
variable {attrs : List Attribute} {children : List Node}

def Statement.isInsertion : Statement → Bool
  | .insert _ _ => true
  | .insertAtMarker _ _ => true
  | _ => false

/-- The client's code for a child that is only known when it runs. -/
def ClientCode : Node → String → Prop
  | .expression given _, code => code = given.emit
  | .component component attributes slot, code =>
    ∃ context, code = ((clientSlot slot >>= componentCall component.path attributes) context).1
  | _, _ => False

/-- A call shows a child: at its marker, or in the whole of its parent. -/
def ShownBy (region : Bool × Node) (statement : Statement) : Prop :=
  ∃ target code, ClientCode region.2 code ∧
    statement = if region.1 then .insertAtMarker target code else .insert target code

/-- What a client's program has gained is written after an outline, with a call for each child of it. -/
structure Follows (program after : ClientProgram) (tokens : List Token) : Prop where
  html_eq : after.html = program.html ++ writtenAll tokens
  statements : ∃ more, after.statements = program.statements ++ more ∧
    Forall₂ ShownBy (regions tokens) (more.filter Statement.isInsertion)

variable {program middle after : ClientProgram} {tokens others : List Token}

theorem Follows.of_same (html : after.html = program.html) (statements : after.statements = program.statements) :
    Follows program after [] :=
  ⟨by simp [html, writtenAll], [], by simp [statements], .nil⟩

theorem Follows.trans (one : Follows program middle tokens) (two : Follows middle after others) :
    Follows program after (tokens ++ others) := by
  obtain ⟨more, before, each⟩ := one.statements
  obtain ⟨more', behind, each'⟩ := two.statements
  refine ⟨by rw [two.html_eq, one.html_eq, writtenAll_append, String.append_assoc], more ++ more', ?_, ?_⟩
  · rw [behind, before, append_assoc]
  · rw [regions_append, filter_append]
    exact rel_append each each'

theorem Follows.of_region {several : Bool} {child : Node} (shown : ShownBy (several, child) statement)
    (html : after.html = program.html ++ (Token.region several child).written)
    (statements : after.statements = program.statements ++ [statement]) : Follows program after [.region several child] := by
  have insertion : statement.isInsertion = true := by
    obtain ⟨_, _, _, rfl⟩ := shown
    cases several <;> rfl
  exact ⟨by simp [html, writtenAll], [statement], statements, by simpa [regions, Token.region?, insertion] using shown⟩

theorem Follows.of_token (program : ClientProgram) (token : Token) (plain : token.region? = none) :
    Follows program { program with html := program.html ++ token.written } [token] :=
  ⟨by simp [writtenAll], [], by simp, by simp [regions, plain]⟩

theorem makes_reach_same (base : String) (address : Address) :
    Makes (ClientGen.reach base address) program fun _ after =>
      after.html = program.html ∧ after.statements = program.statements := by
  by_cases known : address ∈ program.located.map Prod.fst
  · refine (makes_reach_known base known).mono ?_
    rintro _ _ ⟨rfl, _⟩
    exact ⟨rfl, rfl⟩
  · intro context
    rw [reach_fresh base known context]
    exact ⟨rfl, rfl⟩

theorem follows_reach (base : String) (address : Address) :
    Makes (ClientGen.reach base address) program fun _ after => Follows program after [] :=
  (makes_reach_same base address).mono fun _ _ same => .of_same same.1 same.2

theorem isInsertion_attributeStatement? {target : String} {entry : Attribute}
    (found : attributeStatement? target entry = some statement) : statement.isInsertion = false := by
  cases entry with
  | value =>
    rw [attributeStatement?] at found
    split at found
    · cases found
    · obtain rfl := Option.some.inj found
      rfl
  | _ =>
    obtain rfl := Option.some.inj found
    rfl

theorem follows_element {address : Address} {inner : ClientGen Unit}
    (within : ∀ middle, Makes inner middle fun _ after => Follows middle after tokens) :
    Makes (clientElement address element attrs inner) program fun _ after =>
      Follows program after (openTag element attrs :: tokens ++ closeTag element) := by
  refine (makes_clientElement (Follows program · []) (Follows program · (openTag element attrs :: tokens))
    (fun _ => ?_) (fun _ => .of_same rfl rfl) fun start called => ?_).mono ?_
  · refine (makes_reach_same "__el" address).mono fun target reached same => ?_
    have order := perm_orderStatements [] [] false (attrs.filterMap (attributeStatement? target))
    refine ⟨by simp [same.1, writtenAll], _, congrArg (· ++ _) same.2, ?_⟩
    rw [filter_eq_nil_iff.mpr]
    · exact .nil
    · intro statement member
      obtain ⟨_, _, found⟩ := mem_filterMap.mp (order.mem_iff.mp member)
      simp [isInsertion_attributeStatement? found]
  · exact (within _).mono fun _ filled mem =>
      (called.trans (.of_token start (openTag element attrs) rfl)).trans mem
  · rintro _ _ ⟨between, mem, rfl⟩
    unfold closeTag
    cases element.isVoid with
    | true => exact mem.trans (.of_same (by simp) rfl)
    | false => exact mem.trans (.of_token between (.finish element.tag) rfl)

theorem follows_text (cursor : ChildCursor) (text : String) :
    Makes (clientText cursor text) program fun _ after => Follows program after [.text text] := by
  unfold clientText
  split
  · rename_i empty
    obtain rfl : text = "" := String.isEmpty_iff.mp empty
    exact makes_pure ⟨by simp [writtenAll, Token.written, Entity.escapeAll, Entity.escape], [], by simp, .nil⟩
  · exact fun _ => .of_token program (.text text) rfl

theorem follows_clientRegion (child : Node) {code : String} (coded : ClientCode child code) (several : Bool)
    (parent : Address) (cursor : ChildCursor) :
    Makes (clientRegion (!several) parent cursor code) program fun _ after =>
      Follows program after [.region several child] := by
  cases several with
  | false =>
    refine (makes_reach_same "__el" parent).bind fun target reached same => ?_
    have recorded : Follows program { reached with statements := reached.statements ++ [.insert target code] }
        [.region false child] :=
      .of_region ⟨target, code, coded, rfl⟩ (by simp [Token.written, same.1]) (by simp [same.2])
    exact fun _ => recorded
  | true =>
    have marked : Makes (ClientGen.emit "<!--$-->") program fun _ after =>
        after.html = program.html ++ "<!--$-->" ∧ after.statements = program.statements := fun _ => ⟨rfl, rfl⟩
    refine marked.bind fun _ middle before => ?_
    refine (makes_reach_same "__m" (cursor.index :: parent)).bind fun marker reached same => ?_
    have recorded : Follows program { reached with statements := reached.statements ++ [.insertAtMarker marker code] }
        [.region true child] :=
      .of_region ⟨marker, code, coded, rfl⟩ (same.1.trans before.1) (by simp [same.2, before.2])
    exact fun _ => recorded

theorem sole_eq (count : element.childCount = children.length) (some : children ≠ []) :
    (element.childCount == 1) = !decide (1 < children.length) := by
  have positive : 0 < children.length := length_pos_iff.mpr some
  rw [count]
  by_cases one : children.length = 1
  · simp [one]
  · have more : 1 < children.length := by omega
    simp [one, more]

mutual

theorem follows_clientChild (node : Node) (counted : Counted node) (several : Bool) (parent : Address)
    (cursor : ChildCursor) (program : ClientProgram) :
    Makes (clientChild (!several) parent cursor node) program fun _ after => Follows program after (outline several node) := by
  match node with
  | .text data =>
    rw [clientChild]
    exact follows_text cursor data
  | .expression given span =>
    rw [clientChild, outline]
    split
    · exact follows_clientRegion (.expression given span) rfl several parent cursor
    · exact follows_text cursor given.shown
  | .component component attrs slot =>
    rw [clientChild]
    intro context
    exact follows_clientRegion (.component component attrs slot) ⟨context, rfl⟩ several parent cursor _
  | .element element attrs children =>
    rw [clientChild, outline]
    have body : ∀ begun, Follows program begun [] → Makes (do
          clientElement (cursor.index :: parent) element attrs
            (clientChildren (element.childCount == 1) (cursor.index :: parent) {} children)
          return (⟨cursor.index + 1, false⟩ : ChildCursor)) begun fun _ after => Follows program after
            (openTag element attrs :: outlineAll (1 < children.length) children ++ closeTag element) := by
      intro begun one
      refine (follows_element fun middle => ?_).bind fun _ after two => makes_pure (one.trans two)
      exact follows_clientChildren children counted.2 _ _ (sole_eq counted.1) _ _ middle
    cases element.dynamic with
    | true => exact (Makes.discard (follows_reach "__el" (cursor.index :: parent))).bind fun _ begun one => body begun one
    | false => exact body program (.of_same rfl rfl)

theorem follows_clientChildren (nodes : List Node) (counted : CountedAll nodes) (several sole : Bool)
    (agree : nodes ≠ [] → sole = !several) (parent : Address) (cursor : ChildCursor) (program : ClientProgram) :
    Makes (clientChildren sole parent cursor nodes) program fun _ after =>
      Follows program after (outlineAll several nodes) := by
  match nodes with
  | [] =>
    rw [clientChildren]
    exact makes_pure (.of_same rfl rfl)
  | node :: rest =>
    obtain rfl := agree (by simp)
    rw [clientChildren]
    refine (follows_clientChild node counted.1 several parent cursor program).bind fun next middle one => ?_
    exact (follows_clientChildren rest counted.2 several (!several) (fun _ => rfl) parent next middle).mono
      fun _ after two => one.trans two

end

theorem follows_rootProgram (counted : Counted (.element element attrs children)) (context : Context) :
    Follows .start (rootProgram element attrs children context).1 (outline false (.element element attrs children)) := by
  rw [outline]
  exact follows_element (fun middle => follows_clientChildren children counted.2 _ _ (sole_eq counted.1) [] {} middle) context

end Client

section Server

variable {chunks : List Chunk}
variable {token : Token}

def isChildPart (code : String) : Bool := "__ssr_child(".toList.isPrefixOf code.toList

/-- The server's code for a child that is only known when it runs. -/
def ServerCode : Node → String → Prop
  | .expression given _, code => code = given.code
  | .component component attributes slot, code =>
    ∃ context, code = ((serverSlot slot >>= componentCall component.path attributes) context).1
  | _, _ => False

def ServedBy (region : Bool × Node) (part : String) : Prop :=
  ∃ code, ServerCode region.2 code ∧ part = "__ssr_child(" ++ code ++ ")"

def Token.Served : Token → List Chunk → Prop
  | .start tag attributes _ _, chunks => ∃ codes : List String, (∀ code ∈ codes, isChildPart code = false) ∧
      chunks = .markup ("<" ++ tag ++ String.join (attributes.map renderAttribute)) :: codes.map .part ++ [.markup ">"]
  | .region marked child, chunks => ∃ part, ServedBy (marked, child) part ∧
      chunks = if marked then [.markup "<!--$-->", .part part] else [.part part]
  | .text data, chunks => chunks = [.markup (Entity.escapeAll data)]
  | .finish tag, chunks => chunks = [.markup ("</" ++ tag ++ ">")]

def Serves (chunks : List Chunk) (tokens : List Token) : Prop :=
  ∃ pieces : List (List Chunk), chunks = pieces.flatten ∧ Forall₂ (fun token piece => token.stripped.Served piece) tokens pieces

theorem Serves.append {more : List Chunk} {tokens others : List Token} (one : Serves chunks tokens) (two : Serves more others) :
    Serves (chunks ++ more) (tokens ++ others) := by
  obtain ⟨pieces, rfl, each⟩ := one
  obtain ⟨pieces', rfl, each'⟩ := two
  exact ⟨pieces ++ pieces', by simp, rel_append each each'⟩

theorem serves_one (served : token.stripped.Served chunks) : Serves chunks [token] :=
  ⟨[chunks], by simp, .cons served .nil⟩

def Chunk.known : Chunk → String
  | .markup text => text
  | .part _ => ""

theorem join_fragmentsFrom (current : String) (chunks : List Chunk) :
    String.join (fragmentsFrom current chunks) = current ++ String.join (chunks.map Chunk.known) := by
  induction chunks generalizing current with
  | nil => simp [fragmentsFrom]
  | cons chunk _ ih =>
    cases chunk with
    | markup => rw [fragmentsFrom, ih]; simp [Chunk.known, String.append_assoc]
    | part => simp [fragmentsFrom, ih, Chunk.known]

theorem length_fragmentsFrom (current : String) (chunks : List Chunk) :
    (fragmentsFrom current chunks).length = (parts chunks).length + 1 := by
  induction chunks generalizing current with
  | nil => rfl
  | cons chunk _ ih =>
    cases chunk with
    | markup => rw [fragmentsFrom, ih]; rfl
    | part => rw [fragmentsFrom, length_cons, ih]; rfl

theorem Token.Served.known {token : Token} {chunks : List Chunk} (served : token.Served chunks) :
    String.join (chunks.map Chunk.known) = token.written := by
  have silent : ∀ codes : List String, String.join ((codes.map Chunk.part).map Chunk.known) = "" := by
    intro codes
    induction codes with
    | nil => rfl
    | cons _ _ ih => simpa [Chunk.known] using ih
  cases token with
  | start =>
    obtain ⟨_, _, rfl⟩ := served
    rw [cons_append, map_cons, map_append, String.join_cons, String.join_append, silent]
    simp [Chunk.known, Token.written, String.append_assoc]
  | region marked =>
    obtain ⟨_, _, rfl⟩ := served
    cases marked <;> simp [Chunk.known, Token.written]
  | text | finish =>
    obtain rfl : chunks = _ := served
    simp [Chunk.known, Token.written]

theorem parts_append (first second : List Chunk) : parts (first ++ second) = parts first ++ parts second :=
  filterMap_append

theorem Token.Served.childParts (served : token.Served chunks) :
    Forall₂ ServedBy (regions [token]) ((parts chunks).filter isChildPart) := by
  cases token with
  | start tag attrs =>
    obtain ⟨codes, others, rfl⟩ := served
    have all : parts (.markup ("<" ++ tag ++ String.join (attrs.map renderAttribute)) :: codes.map .part ++ [.markup ">"]) =
        codes := by
      rw [parts_append]
      simp [parts, filterMap_map]
    have none : codes.filter isChildPart = [] := filter_eq_nil_iff.mpr fun code mem => by simp [others code mem]
    rw [all, none]
    exact .nil
  | region marked child =>
    obtain ⟨part, shown, rfl⟩ := served
    have child : isChildPart part = true := by
      obtain ⟨_, _, rfl⟩ := shown
      simp [isChildPart]
    cases marked <;> simpa [regions, Token.region?, parts, child] using shown
  | text | finish =>
    obtain rfl : chunks = _ := served
    exact .nil

theorem Serves.known {chunks : List Chunk} {tokens : List Token} (serves : Serves chunks tokens) :
    String.join (chunks.map Chunk.known) = writtenAll (tokens.map Token.stripped) := by
  obtain ⟨_, rfl, each⟩ := serves
  induction each with
  | nil => rfl
  | cons served _ ih =>
    rw [flatten_cons, map_append, String.join_append, served.known, ih]
    simp [writtenAll]

theorem Serves.childParts {chunks : List Chunk} {tokens : List Token} (serves : Serves chunks tokens) :
    Forall₂ ServedBy (regions tokens) ((parts chunks).filter isChildPart) := by
  obtain ⟨_, rfl, each⟩ := serves
  induction each with
  | nil => exact .nil
  | @cons token _ _ _ served _ ih =>
    have same : regions [token.stripped] = regions [token] := by cases token <;> rfl
    rw [flatten_cons, parts_append, filter_append, ← singleton_append, regions_append, ← same]
    exact rel_append served.childParts ih

section Logic

variable {α β : Type}

def Gives (act : Gen α) (post : α → Prop) : Prop := ∀ context, post (act context).1

theorem gives_pure {value : α} {post : α → Prop} (holds : post value) : Gives (pure value) post := fun _ => holds

theorem Gives.bind {act : Gen α} {next : α → Gen β} {middle : α → Prop} {post : β → Prop} (first : Gives act middle)
    (second : ∀ value, middle value → Gives (next value) post) : Gives (act >>= next) post :=
  fun context => second _ (first context) (act context).2

theorem gives_any (act : Gen α) : Gives act fun _ => True := fun _ => trivial

theorem gives_call (function : String) (arguments : List String) :
    Gives (call function arguments) fun code => code = "__" ++ function ++ "(" ++ ", ".intercalate arguments ++ ")" :=
  fun _ => rfl

theorem gives_filterMapM {f : α → Gen (Option β)} (post : β → Prop) (each : ∀ a, Gives (f a) fun made => ∀ b ∈ made, post b)
    (items : List α) : Gives (items.filterMapM f) fun made => ∀ b ∈ made, post b := by
  induction items with
  | nil => exact gives_pure (by simp)
  | cons a _ ih =>
    rw [filterMapM_cons]
    refine (each a).bind fun made first => ?_
    cases made with
    | none => exact ih
    | some b => exact ih.bind fun others later => gives_pure (forall_mem_cons.mpr ⟨first b rfl, later⟩)

end Logic

section OpenTags

variable {α β : Type}

theorem isEmpty_filterMap (f : α → Option β) (items : List α) :
    (items.filterMap f).isEmpty = !items.any fun a => (f a).isSome := by
  induction items with
  | nil => rfl
  | cons a _ ih => cases made : f a <;> simp [made, ih]

theorem classes_isEmpty (attrs : List Attribute) :
    (ComputedAttributes.ofAttributes attrs).classes.isEmpty = !togglesClasses attrs := by
  rw [ComputedAttributes.ofAttributes, isEmpty_filterMap, togglesClasses]
  congr 2
  funext entry
  cases entry with
  | value kind => cases kind <;> simp [apply_ite]
  | _ => rfl

theorem styles_isEmpty (attrs : List Attribute) :
    (ComputedAttributes.ofAttributes attrs).styles.isEmpty = !togglesStyles attrs := by
  rw [ComputedAttributes.ofAttributes, isEmpty_filterMap, togglesStyles]
  congr 2
  funext entry
  cases entry with
  | value kind => cases kind <;> simp [apply_ite]
  | _ => rfl

theorem gives_attributeCall {function : String} (known : function ∈ ["ssr_attr", "ssr_spread", "classes", "styles"])
    (arguments : List String) : Gives (call function arguments) fun code => isChildPart code = false := by
  intro context
  rw [gives_call function arguments context]
  simp only [mem_cons, not_mem_nil, or_false] at known
  rcases known with rfl | rfl | rfl | rfl <;> simp [isChildPart, isPrefixOf]

theorem plain_toggleCall {name function convert : String} (known : function ∈ ["ssr_attr", "ssr_spread", "classes", "styles"])
    (statics : List (String × String)) (computed : List ComputedAttribute) (toggles : List (String × String)) :
    Gives (toggleCall name function convert statics computed toggles) fun codes => ∀ code ∈ codes, isChildPart code = false := by
  unfold toggleCall
  split
  · exact gives_pure (by simp)
  · exact (gives_any _).bind fun _ _ => (gives_attributeCall known _).bind fun code plain => gives_pure (by simpa using plain)

theorem served_serverOpenTag (element : Blueprint.Element) (attrs : List Attribute) :
    Gives (serverOpenTag element attrs) fun chunks => (openTag element attrs).stripped.Served chunks := by
  unfold serverOpenTag
  simp only [ComputedAttributes.replaces, classes_isEmpty, styles_isEmpty, Bool.not_not]
  refine (gives_filterMapM (fun code => isChildPart code = false) (fun entry => ?_) _).bind fun wholes one => ?_
  · cases entry with
    | whole _ code =>
      dsimp only [wholeCall]
      split
      · exact gives_pure (by simp)
      · exact (gives_attributeCall (by simp) _).bind fun code plain => gives_pure (by simpa using plain)
    | spread code => exact (gives_attributeCall (by simp) _).bind fun code plain => gives_pure (by simpa using plain)
  · refine (plain_toggleCall (by simp) _ _ _).bind fun classes two => ?_
    refine (plain_toggleCall (by simp) _ _ _).bind fun styles three => gives_pure ?_
    refine ⟨wholes ++ classes ++ styles, fun code mem => ?_, rfl⟩
    rcases mem_append.mp mem with earlier | late
    · rcases mem_append.mp earlier with early | middle
      · exact one code early
      · exact two code middle
    · exact three code late

end OpenTags

def placeOf (several : Bool) : Place := if several then .child else .soleChild

theorem place_eq {element : Blueprint.Element} {children : List Node} (count : element.childCount = children.length)
    (some : children ≠ []) : (if element.childCount = 1 then .soleChild else .child) = placeOf (1 < children.length) := by
  have told := sole_eq count some
  by_cases one : element.childCount = 1
  · have few : decide (1 < children.length) = false := by simpa [one] using told
    rw [if_pos one, few]
    rfl
  · rw [beq_false_of_ne one, Bool.false_eq, Bool.not_eq_false'] at told
    rw [if_neg one, told]
    rfl

theorem serves_serverRegion (child : Node) {code : String} (coded : ServerCode child code) (several : Bool) :
    Gives (serverRegion (placeOf several) code) fun chunks => Serves chunks [.region several child] := by
  have part : ServedBy (several, child) ("__ssr_child(" ++ code ++ ")") := ⟨code, coded, rfl⟩
  cases several with
  | true => exact (gives_call "ssr_child" [code]).bind fun _ same => gives_pure (serves_one ⟨_, part, by rw [same]; rfl⟩)
  | false => exact (gives_call "ssr_child" [code]).bind fun _ same => gives_pure (serves_one ⟨_, part, by rw [same]; rfl⟩)

mutual

theorem serves_serverNode (node : Node) (counted : Counted node) (several : Bool) (place : Place)
    (agree : node.dynamic = true → place = placeOf several) :
    Gives (serverNode place node) fun chunks => Serves chunks (outline several node) := by
  match node with
  | .text _ =>
    rw [serverNode]
    exact gives_pure (serves_one rfl)
  | .expression given span =>
    rw [serverNode, outline]
    split
    · rename_i dynamic
      rw [agree dynamic]
      exact serves_serverRegion (.expression given span) rfl several
    · exact gives_pure (serves_one rfl)
  | .component component attrs slot =>
    rw [serverNode, agree rfl]
    intro context
    exact serves_serverRegion (.component component attrs slot) ⟨context, rfl⟩ several _
  | .element element attrs children =>
    rw [serverNode, outline]
    refine (served_serverOpenTag element attrs).bind fun start opened => ?_
    refine (serves_serverNodes children counted.2 _ _ (place_eq counted.1)).bind fun inner below => gives_pure ?_
    have closed : Serves (if element.isVoid then [] else [.markup ("</" ++ element.tag ++ ">")]) (closeTag element) := by
      unfold closeTag
      cases element.isVoid with
      | true => exact ⟨[], rfl, .nil⟩
      | false => exact serves_one rfl
    exact ((serves_one opened).append below).append closed

theorem serves_serverNodes (nodes : List Node) (counted : CountedAll nodes) (several : Bool) (place : Place)
    (agree : nodes ≠ [] → place = placeOf several) :
    Gives (serverNodes place nodes) fun chunks => Serves chunks (outlineAll several nodes) := by
  match nodes with
  | [] =>
    rw [serverNodes]
    exact gives_pure ⟨[], rfl, .nil⟩
  | node :: rest =>
    have same := agree (by simp)
    rw [serverNodes]
    refine (serves_serverNode node counted.1 several place fun _ => same).bind fun first one => ?_
    refine (serves_serverNodes rest counted.2 several place fun _ => same).bind fun others two => ?_
    exact gives_pure (one.append two)

end

end Server

section Agreement

variable {element : Blueprint.Element} {attributes : List Attribute} {children : List Node}

/-- Both programs of a root follow one outline. The client's markup is the outline as it is written; the known pieces of
the server's, one more than its parts, make up the outline without the classes and styles of elements that toggle them.
The children that are only known when they run are in both in the order of the outline, each as one call and one part,
with a marker before it just where it is one of several. -/
theorem generators_follow_one_outline (counted : Counted (.element element attributes children)) (one other : Context) :
    let root := Node.element element attributes children
    let tokens := outline false root
    let program := (rootProgram element attributes children one).1
    let chunks := (serverNodes .root [root] other).1
    client ⟨false, [root]⟩ one =
        program.render (element.isSvg && element.tag != "svg") (rootProgram element attributes children one).2 ∧
      server ⟨false, [root]⟩ other = serverCode chunks (serverNodes .root [root] other).2 ∧
      program.html = writtenAll tokens ∧
      String.join (fragments chunks) = writtenAll (tokens.map Token.stripped) ∧
      (fragments chunks).length = (parts chunks).length + 1 ∧
      Forall₂ ShownBy (regions tokens) (program.statements.filter Statement.isInsertion) ∧
      Forall₂ ServedBy (regions tokens) ((parts chunks).filter isChildPart) ∧
      Serves chunks tokens := by
  intro root tokens program chunks
  have followed := follows_rootProgram counted one
  have served : Serves chunks tokens := by
    have alone := serves_serverNode root counted false .root (by simp [root, Node.dynamic])
    have listed : chunks = (serverNode .root root other).1 ++ [] := rfl
    rw [listed, append_nil]
    exact alone other
  obtain ⟨made, stated, shown⟩ := followed.statements
  refine ⟨?_, rfl, ?_, ?_, length_fragmentsFrom "" chunks, ?_, served.childParts, served⟩
  · rw [client, clientRoots, clientRoots, clientRoot_element]
    rfl
  · simpa [ClientProgram.start] using followed.html_eq
  · rw [fragments, join_fragmentsFrom, served.known]
    simp
  · rw [show program.statements = made by simpa [ClientProgram.start] using stated]
    exact shown

/-- A section with a class, toggles and a title, and in it a text, a value and a paragraph around a value. -/
def banner : List Attribute × List Node :=
  let span := Template.Span.mk ⟨0, 1, 1⟩ 0
  let value (code : String) : Value := ⟨code, none, true, none⟩
  ([.value .plain "class" (.ofText "a") span, .value .toggle "on" (value "x()") span, .value .style "color" (.ofText "red") span,
      .value .plain "title" (.ofText "<") span],
    [.text "b", .expression (value "n()") span,
      .element ⟨"p", false, false, 1, 0, span, true⟩ [] [.expression (value "m()") span]])

def bannerElement : Blueprint.Element := ⟨"section", false, false, 3, 1, ⟨⟨0, 1, 1⟩, 0⟩, true⟩

/-- The server leaves out the class of the banner, which it computes, but not its style. -/
theorem generators_follow_one_outline_banner :
    (rootProgram bannerElement banner.1 banner.2 ⟨.client, "rt", {}, []⟩).1.html =
        "<section class=\"a\" title=\"&lt;\" style=\"color: red;\">b<!--$--><p></p></section>" ∧
      String.join (fragments (serverNodes .root [.element bannerElement banner.1 banner.2] ⟨.server, "rt", {}, []⟩).1) =
        "<section title=\"&lt;\" style=\"color: red;\">b<!--$--><p></p></section>" := by
  have counted : Counted (.element bannerElement banner.1 banner.2) := ⟨rfl, trivial, trivial, ⟨rfl, trivial, trivial⟩, trivial⟩
  obtain ⟨_, _, html, known, _⟩ := generators_follow_one_outline counted ⟨.client, "rt", {}, []⟩ ⟨.server, "rt", {}, []⟩
  rw [html, known]
  decide +kernel

end Agreement

end LiveMarkup.Codegen
