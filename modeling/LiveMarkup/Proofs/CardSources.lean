import LiveMarkup.Card.Client
import LiveMarkup.Codegen.Compile
import LiveMarkup.Proofs.ElementBindings

/-!
Cards as they are written: what is generated of their templates, on either target, does what cards do there, where the code
in braces stands for the cells and the fields of a card.
-/

namespace LiveMarkup.Card
open Codegen Document Live Reactive

def Shape.source : Shape → String
  | .card => "
        <div class=\x7bstate.kind.get()\x7d class:active=\x7bstate.active.get()\x7d style:color=\x7bstate.tone.get()\x7d>
            <h1 title=\x7bstate.title.get()\x7d>\x7bstate.title.get()\x7d</h1>
            <p>Count: \x7bstate.count.get()\x7d</p>
            <button on:click=\x7bmove |_| state.count.update(|c| *c += 1)\x7d>+</button>
            <ul>\x7bitems(state)\x7d</ul>
        </div>
    "
  | .item => " <li>\x7bitem\x7d</li> "

section Client

variable {γ τ : Type}

/-- What code stands for where a program of the client runs. -/
structure Meaning (γ τ : Type) where
  value : String → AttributeValue γ
  view : String → View γ
  handler : String → γ
  /-- What the other calls do. -/
  other : (String → NodeId) → Statement → LiveProgram γ τ Unit

def walkAll : List Walk → (String → NodeId) → LiveProgram γ τ (String → NodeId)
  | [], nodes => return nodes
  | step :: rest, nodes => do
    let n ← walk (nodes step.origin) step.path
    walkAll rest fun name => if name = step.declared then n else nodes name

def perform (meaning : Meaning γ τ) (nodes : String → NodeId) (statement : Statement) : LiveProgram γ τ Unit :=
  match statement with
  | .bind kind target name code =>
    match bindingOf? kind name with
    | some binding => bindTo (nodes target) binding (meaning.value code)
    | none => meaning.other nodes statement
  | .insert target code => insert (nodes target) (meaning.view code) none
  | .insertAtMarker marker code => insertAtMarker (nodes marker) (meaning.view code)
  | .listen target event handler capture => do
    let _ ← listen (nodes target) event capture (meaning.handler handler)
  | _ => meaning.other nodes statement

def got (field : String) : String := "state." ++ field ++ ".get()"

def Shape.program (shape : Shape) : ClientProgram :=
  match shape with
  | .card =>
    { html := shape.markup
      walks := [⟨"__el_2", "__el", "f"⟩, ⟨"__el_3", "__el_2", "n"⟩, ⟨"__m", "__el_3", "fn"⟩, ⟨"__el_4", "__el_3", "n"⟩,
        ⟨"__el_5", "__el_4", "n"⟩]
      statements := [.bind .plain "__el" "class" ("move || " ++ got "kind"),
        .bind .toggle "__el" "active" ("move || " ++ got "active"), .bind .style "__el" "color" ("move || " ++ got "tone"),
        .bind .plain "__el_2" "title" ("move || " ++ got "title"), .insert "__el_2" ("move || " ++ got "title"),
        .insertAtMarker "__m" ("move || " ++ got "count"),
        .listen "__el_4" "click" "move |_| state.count.update(|c| *c += 1)" false, .insert "__el_5" "move || items(state)"] }
  | .item => { html := shape.markup, statements := [.insert "__el" "item"] }

/-- Builds from a template what its program says. -/
def made (shape : Shape) (meaning : Meaning Code Templates) : CardProgram (View Code) := do
  let root ← instantiate (← template shape)
  let nodes ← walkAll shape.program.walks fun _ => root
  shape.program.statements.forM (perform meaning nodes)
  return .node root

def Cells.source (cells : Cells) (code : String) : Source Code :=
  let fields := [("kind", cells.kind), ("active", cells.active), ("tone", cells.tone), ("title", cells.title),
    ("count", cells.count)]
  match fields.find? fun field => "move || " ++ got field.1 == code with
  | some field => .cell field.2
  | none => .code (.items cells.items)

theorem build_eq_made (cells : Cells) : build cells = made .card
    ⟨fun code => .dynamic (cells.source code), fun code => .dynamic (cells.source code), fun _ => .raise cells.count,
      fun _ _ => return⟩ := by
  simp [build, furnish, dress, made, Shape.program, walkAll, perform, bindingOf?, Cells.source, got]

theorem buildItem_eq_made (item : Datum) : buildItem item =
    made .item ⟨fun _ => .fixed none, fun _ => .ofDatum item, fun _ => .raise 0, fun _ _ => return⟩ := by
  simp [buildItem, made, Shape.program, walkAll, perform]

end Client

section Server

/-- A part of what is generated for the server: markup, or code with the markup that it gives. -/
inductive Part (α : Type) where
  | markup (text : String)
  | code (code : String) (text : α → String)

variable {α : Type}

def Part.chunk : Part α → Chunk
  | .markup text => .markup text
  | .code generated _ => .part generated

def Part.text (data : α) : Part α → String
  | .markup text => text
  | .code _ text => text data

def serverParts : List (Part Card) :=
  [.markup "<div",
    .code "__classes(state.kind.get(), &[(\"active\", __truthy(state.active.get()))])"
      fun card => classesMarkup (some card.kind) [("active", card.active)],
    .code "__styles(\"\", &[(\"color\", __attribute_value(state.tone.get()))])"
      fun card => stylesMarkup (some "") [("color", card.tone)],
    .markup "><h1", .code "__ssr_attr(\"title\", state.title.get())" fun card => attributeMarkup "title" (some card.title),
    .markup ">", .code "__ssr_child(state.title.get())" fun card => child (Markup.Entity.escapeAll card.title),
    .markup "</h1><p>Count: <!--$-->", .code "__ssr_child(state.count.get())" fun card => child (toString card.count),
    .markup "</p><button>+</button><ul>",
    .code "__ssr_child(items(state))" fun card => child (String.join (card.items.map itemMarkup)), .markup "</ul></div>"]

def itemParts : List (Part String) :=
  [.markup "<li>", .code "__ssr_child(item)" fun item => child (Markup.Entity.escapeAll item), .markup "</li>"]

theorem markup_eq_join (card : Card) : card.markup = String.join (serverParts.map (·.text card)) := by
  simp [markup, serverParts, interleave, Part.text, String.join, String.append_assoc]

theorem itemMarkup_eq_join (item : String) : itemMarkup item = String.join (itemParts.map (·.text item)) := by
  simp [itemMarkup, itemParts, interleave, Part.text, String.join, String.append_assoc]

end Server

def Shape.generated (shape : Shape) : Target → Gen String
  | .client => shape.program.render false
  | .server => serverCode (match shape with
    | .card => serverParts.map Part.chunk
    | .item => itemParts.map Part.chunk)

set_option maxRecDepth 10000 in
theorem compile_source (shape : Shape) (target : Target) :
    (compileTemplate shape.source { target }).toOption.map (fun compiled => (compiled.code, compiled.hoisted)) =
      some (let (code, context) := (shape.generated target).run (.ofOptions { target }); (code, context.renderHoisted)) := by
  unfold compileTemplate compileInto Template.parse Template.Parser.parse Template.Cursor.ofText
  cases shape with
  | card =>
    have spelled : Shape.source .card = String.ofList _ := rfl
    rw [spelled, String.toList_ofList]
    cases target <;> decide +kernel
  | item => cases target <;> decide +kernel

end LiveMarkup.Card
