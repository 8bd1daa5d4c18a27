import LiveMarkup.Proofs.Contents
import LiveMarkup.Proofs.Leniency
import LiveMarkup.Proofs.Templates

/-!
Round trips between documents and markup. Trees that are durable come back from their markup as they are. Whatever markup
was read, the markup of what came of it is stable: reading it can only join texts that stood beside each other.
-/

namespace LiveMarkup.Markup
open Text Entity Piece

namespace Tree

variable {markup : String}

theorem chars_openTag (tag : String) (attrs : Attributes) : (openTag tag attrs).toList =
    '<' :: tag.toList ++ attrs.flatMap (attributeChars attributeMarks) ++ ['>'] := by
  have each : ∀ attrs : Attributes, (String.join (attrs.map renderAttribute)).toList =
      attrs.flatMap (attributeChars attributeMarks) := by
    intro attrs
    induction attrs with
    | nil => rfl
    | cons _ _ ih =>
      simp [renderAttribute, attributeChars, escapeAttribute, ← ih]
  simp [openTag, each]

mutual

theorem spelled_renderIn (tree : Tree) : tree.Spelled (renderIn false tree).toList := by
  match tree with
  | .text _ => exact ⟨contentMarks, escaping_contentMarks, by decide, by simp [renderIn, escapeContent]⟩
  | .comment _ => simp [Spelled, renderIn]
  | .element tag _ _ children =>
    refine ⟨attributeMarks, (renderIn.renderAll (Element.isRawText tag) children).toList,
      escaping_attributeMarks, by decide, fun raw => by rw [raw], fun notRaw => ?_, ?_⟩
    · rw [notRaw]
      exact spelled_renderAll children
    · rw [renderIn, isVoid]
      split <;> simp [chars_openTag]

theorem spelled_renderAll (trees : List Tree) : SpelledAll trees (renderIn.renderAll false trees).toList := by
  match trees with
  | [] => rfl
  | tree :: trees =>
    exact ⟨_, _, by rw [renderIn.renderAll, String.toList_append], spelled_renderIn tree, spelled_renderAll trees⟩

end

/-- Trees that are the same after they were written and read. -/
structure Durable (forest : List Tree) : Prop where
  expressible : ExpressibleAll OrdinaryNames false forest
  apart : ApartAll forest
  legible : areLegible forest = true

section Deciding

theorem readableTag_iff (tag : String) : ReadableTag tag ↔
    (∃ c cs, tag.toList = c :: cs ∧ c.isAlpha) ∧ tag.toList.all isTagChar = true := by
  rw [List.all_eq_true]
  exact ⟨fun ⟨letter, readable⟩ => ⟨letter, readable⟩, fun ⟨letter, readable⟩ => ⟨letter, readable⟩⟩

instance (tag : String) : Decidable (ReadableTag tag) := decidable_of_iff' _ (readableTag_iff tag)

theorem ordinaryNames_iff (attrs : Attributes) : OrdinaryNames attrs ↔
    (∀ entry ∈ attrs, entry.1.toList ≠ [] ∧ entry.1.toList.all isNameChar = true) ∧
      (attrs.map Prod.fst).Nodup := by
  simp only [List.all_eq_true]
  exact ⟨fun ⟨readable, once⟩ => ⟨readable, once⟩, fun ⟨readable, once⟩ => ⟨readable, once⟩⟩

instance : DecidablePred OrdinaryNames := fun attributes => decidable_of_iff' _ (ordinaryNames_iff attributes)

instance (tag : String) : (children : List Tree) → Decidable (RawContent tag children)
  | [] => isTrue (.inl rfl)
  | [.text body] => decidable_of_iff (body ≠ "" ∧ ¬ ("</" ++ tag).toList <:+: body.toList) (by simp [RawContent])
  | .comment _ :: _ | .element .. :: _ | .text _ :: _ :: _ => isFalse (by simp [RawContent])

variable (names : Attributes → Prop) [DecidablePred names]

mutual

def decideExpressible (inSvg : Bool) : (tree : Tree) → Decidable (tree.Expressible names inSvg)
  | .text data => inferInstanceAs (Decidable (data ≠ ""))
  | .comment data => inferInstanceAs (Decidable (¬ "-->".toList <:+: data.toList))
  | .element tag svg attributes children =>
    have := decideExpressibleAll svg children
    inferInstanceAs (Decidable (svg = (inSvg || tag == "svg") ∧ ReadableTag tag ∧ names attributes ∧
      (isVoid tag svg = true → children = []) ∧ (Element.isRawText tag = true → RawContent tag children) ∧
      (Element.isRawText tag = false → ExpressibleAll names svg children)))

def decideExpressibleAll (inSvg : Bool) : (trees : List Tree) → Decidable (ExpressibleAll names inSvg trees)
  | [] => isTrue trivial
  | tree :: rest =>
    have := decideExpressible inSvg tree
    have := decideExpressibleAll inSvg rest
    inferInstanceAs (Decidable (tree.Expressible names inSvg ∧ ExpressibleAll names inSvg rest))

end

mutual

def decideApart : (tree : Tree) → Decidable tree.Apart
  | .text _ | .comment _ => isTrue trivial
  | .element _ _ _ children => decideApartAll children

def decideApartAll : (trees : List Tree) → Decidable (ApartAll trees)
  | [] => isTrue trivial
  | tree :: rest =>
    have := decideApart tree
    have := decideApartAll rest
    inferInstanceAs (Decidable (tree.Apart ∧ (tree.isText = true → ∀ next ∈ rest.head?, next.isText = false) ∧ ApartAll rest))

end

instance (forest : List Tree) : Decidable (Durable forest) :=
  have := decideExpressibleAll OrdinaryNames false forest
  have := decideApartAll forest
  decidable_of_iff (ExpressibleAll OrdinaryNames false forest ∧ ApartAll forest ∧ areLegible forest = true)
    ⟨fun ⟨expressible, apart, legible⟩ => ⟨expressible, apart, legible⟩,
      fun ⟨expressible, apart, legible⟩ => ⟨expressible, apart, legible⟩⟩

end Deciding

theorem Durable.read {forest : List Tree} (durable : Durable forest) (spelled : SpelledAll forest markup.toList) :
    Markup.read markup = ⟨forest, true⟩ := by
  have reads := (read_spelled (fun _ => OrdinaryNames.readableNames) durable.expressible durable.apart spelled).1
  rw [reads durable.legible, tidiedAll_ordinary forest durable.expressible]

section Joining

variable {rest : List Tree} {tree : Tree}

def push : Tree → List Tree → List Tree
  | .text data, .text more :: rest => .text (data ++ more) :: rest
  | tree, rest => tree :: rest

mutual

def joined : Tree → Tree
  | .text data => .text data
  | .comment data => .comment data
  | .element tag svg attributes children => .element tag svg attributes (joinedAll children)

def joinedAll : List Tree → List Tree
  | [] => []
  | tree :: rest => push (joined tree) (joinedAll rest)

end

theorem renderAll_push (raw : Bool) (tree : Tree) (rest : List Tree) :
    renderIn.renderAll raw (push tree rest) = renderIn raw tree ++ renderIn.renderAll raw rest := by
  unfold push
  split
  · rename_i data more rest
    cases raw <;>
      simp [renderIn.renderAll, renderIn, escapeContent, escape, String.append_assoc, String.ofList_append]
  · rfl

mutual

theorem renderIn_joined (raw : Bool) (tree : Tree) : renderIn raw tree.joined = renderIn raw tree := by
  match tree with
  | .text _ => rfl
  | .comment _ => rfl
  | .element _ _ _ _ =>
    rw [joined, renderIn, renderIn, renderAll_joinedAll]

theorem renderAll_joinedAll (raw : Bool) (trees : List Tree) :
    renderIn.renderAll raw (joinedAll trees) = renderIn.renderAll raw trees := by
  match trees with
  | [] => rfl
  | tree :: trees =>
    rw [joinedAll, renderAll_push, renderIn_joined raw tree, renderAll_joinedAll raw trees, renderIn.renderAll]

end

theorem expressibleAll_push {names : Attributes → Prop} {inSvg : Bool} (one : tree.Expressible names inSvg)
    (others : ExpressibleAll names inSvg rest) : ExpressibleAll names inSvg (push tree rest) := by
  unfold push
  split
  · rename_i data more rest
    have nonempty : data ≠ "" := one
    refine ⟨?_, others.2⟩
    simp [Expressible, nonempty]
  · exact ⟨one, others⟩

theorem apartAll_push (one : tree.Apart) (others : ApartAll rest) : ApartAll (push tree rest) := by
  unfold push
  split
  · exact ⟨trivial, others.2⟩
  · rename_i beside
    refine ⟨one, fun text next first => ?_, others⟩
    obtain ⟨rest, rfl⟩ := List.head?_eq_some_iff.mp first
    cases next with
    | comment => rfl
    | element => rfl
    | text more =>
      cases tree with
      | text data => exact absurd rfl (beside data more rest rfl)
      | comment => cases text
      | element => cases text

mutual

theorem Expressible.joined {names : Attributes → Prop} {inSvg : Bool} {tree : Tree}
    (expressible : tree.Expressible names inSvg) : tree.joined.Expressible names inSvg ∧ tree.joined.Apart := by
  match tree with
  | .text _ | .comment _ => exact ⟨expressible, trivial⟩
  | .element tag _ _ children =>
    obtain ⟨within, name, letters, empty, raw, mem⟩ := expressible
    cases kind : Element.isRawText tag with
    | true =>
      have same : joinedAll children = children := by
        rcases raw kind with rfl | ⟨body, rfl, _⟩ <;> rfl
      rw [Tree.joined, same]
      refine ⟨⟨within, name, letters, empty, raw, mem⟩, ?_⟩
      rcases raw kind with rfl | ⟨body, rfl, _⟩
      · trivial
      · exact ⟨trivial, by simp, trivial⟩
    | false =>
      obtain ⟨below, apart⟩ := ExpressibleAll.joined (mem kind)
      refine ⟨⟨within, name, letters, fun void => ?_, by simp [kind], fun _ => below⟩, apart⟩
      rw [empty void]
      rfl

theorem ExpressibleAll.joined {names : Attributes → Prop} {inSvg : Bool} {trees : List Tree}
    (expressible : ExpressibleAll names inSvg trees) :
    ExpressibleAll names inSvg (joinedAll trees) ∧ ApartAll (joinedAll trees) := by
  match trees with
  | [] => exact ⟨trivial, trivial⟩
  | tree :: trees =>
    obtain ⟨one, alone⟩ := Expressible.joined expressible.1
    obtain ⟨others, apart⟩ := ExpressibleAll.joined expressible.2
    exact ⟨expressibleAll_push one others, apartAll_push alone apart⟩

end

end Joining

theorem read_renderForest_read (complete : (read (renderForest (read markup).forest)).complete = true) :
    read (renderForest (read markup).forest) = ⟨joinedAll (read markup).forest, true⟩ := by
  obtain ⟨expressible, apart⟩ := (expressible_read markup).joined
  have spelled := spelled_renderAll (joinedAll (read markup).forest)
  rw [renderAll_joinedAll] at spelled
  obtain ⟨reads, ends⟩ := read_spelled (fun _ => OrdinaryNames.readableNames) expressible apart spelled
  rw [tidiedAll_ordinary _ expressible] at reads
  cases legible : areLegible (joinedAll (read markup).forest) with
  | false => exact absurd complete (by simpa [renderForest] using ends legible)
  | true => exact reads legible

end Tree

end LiveMarkup.Markup

namespace LiveMarkup.Document
open Markup (Tree)

variable {η π : Type} {doc : Document η π} {forest : List Tree} {n : NodeId}

theorem CarriesForest.inner (carries : doc.CarriesForest forest n) : doc.inner n = Tree.renderForest forest := by
  obtain ⟨node, found, kind, _, _, below⟩ := carries
  have tag : doc.tag? n = none := by simp [tag?, kind_of_node? found, kind, Kind.tag?]
  have children : doc.children n = node.children := children_of_node? found
  rw [Document.inner, holdsRawText, tag, children, below.trees]
  rfl

theorem carriesForest_ofTrees (doc : Document η π) (forest : List Tree) :
    (doc.ofTrees forest).2.CarriesForest forest (doc.ofTrees forest).1 := by
  obtain ⟨_, _, made, _, _, found, shows⟩ := ofTrees_shows doc forest
  rw [made]
  exact ⟨_, found, rfl, rfl, rfl, shows.carries⟩

theorem extended_ofTrees (doc : Document η π) (forest : List Tree) : Extended doc (doc.ofTrees forest).2 := by
  obtain ⟨_, _, made, extended, _⟩ := ofTrees_shows doc forest
  rw [made]
  exact extended

theorem CarriesForest.extended {next : Document η π} (extended : Extended doc next)
    (carries : doc.CarriesForest forest n) : next.CarriesForest forest n := by
  obtain ⟨node, found, kind, data, names, below⟩ := carries
  exact ⟨node, (extended.node?_eq n (lt_size_of_node? found)).trans found, kind, data, names, below.extended extended⟩

end LiveMarkup.Document

namespace LiveMarkup.Live
open Document Markup Reactive

variable {γ τ : Type}

/-- A fragment that holds durable trees is the same as the fragment that its markup is read into. -/
theorem fragment_same_as_reread (host : Host γ τ) (level : Nat) (graph : Graph (Procedure γ) Datum) (world : World γ τ)
    {n : NodeId} {forest : List Tree} (carries : world.document.CarriesForest forest n) (durable : Tree.Durable forest) :
    (readFragment (world.document.inner n)).Ensures (Procedure.meaning host) level graph world
      fun m graph' world' => graph' = graph ∧ Extended world.document world'.document ∧
        world'.document.same m n = true := by
  have read : Markup.read (world.document.inner n) = ⟨forest, true⟩ := by
    rw [carries.inner]
    exact durable.read (Tree.spelled_renderAll forest)
  refine (ensures_readFragment read).mono ?_
  rintro _ _ _ ⟨rfl, rfl, rfl⟩
  have extended := extended_ofTrees world.document forest
  exact ⟨rfl, extended, (carriesForest_ofTrees world.document forest).same (carries.extended extended)⟩

def page : List Tree :=
  [.comment "a-b",
    .element "p" false [("class", "x\"<y"), ("hidden", "")] [.text "1 < 2 &amp; 3", .element "br" false [] [], .text "a>b"],
    .element "script" false [] [.text "é = a < b && \"</p>\""],
    .element "svg" true [] [.element "br" true [("d", "'")] [.text "t"]]]

/-- The page is durable, and a fragment that holds it is the same after it was written and read. -/
theorem fragment_same_as_reread_page :
    Tree.Durable page ∧ ∃ world : World Empty Unit, world.document.CarriesForest page 0 ∧
      (readFragment (world.document.inner 0)).Ensures (Procedure.meaning ⟨nofun, nofun, nofun, nofun, nofun⟩) 0 {} world
        fun m _ world' => world'.document.same m 0 = true := by
  have durable : Tree.Durable page := by decide +kernel
  have carries : (Document.ofTrees ({} : Document Empty Property) page).2.CarriesForest page 0 :=
    carriesForest_ofTrees {} page
  refine ⟨durable, { document := _, host := () }, carries, ?_⟩
  refine (fragment_same_as_reread _ 0 {} _ carries durable).mono ?_
  rintro _ _ _ ⟨_, _, same⟩
  exact same

theorem readFragment_eq (self : Runner (Procedure γ) (World γ τ) Datum) (markup : String)
    (state : State (Procedure γ) (World γ τ) Datum) : (readFragment markup).run self state =
      (if (read markup).complete then (return (state.outside.document.ofTrees (read markup).forest).1 : LiveProgram γ τ NodeId)
        else .fault .unreadable).run self
        { state with outside := { state.outside with document := (state.outside.document.ofTrees (read markup).forest).2 } } :=
  rfl

theorem run_readFragment (self : Runner (Procedure γ) (World γ τ) Datum) {markup : String}
    {state state' : State (Procedure γ) (World γ τ) Datum} {n : NodeId}
    (ran : (readFragment markup).run self state = .ok n state') :
    (read markup).complete = true ∧ state'.outside.document.CarriesForest (read markup).forest n := by
  rw [readFragment_eq] at ran
  split at ran
  · rename_i complete
    obtain ⟨rfl, rfl⟩ := EStateM.Result.ok.inj ran
    exact ⟨complete, carriesForest_ofTrees _ _⟩
  · cases ran

/-- Reads markup and writes what it holds, and does the same with what is written. -/
def rewriteTwice (markup : String) : LiveProgram γ τ (String × String) := do
  let first ← readFragment markup
  let written ← seeDocument (·.inner first)
  let second ← readFragment written
  return (written, ← seeDocument (·.inner second))

/-- However malformed markup is, what is written of it once it is read does not change when it is read again. -/
theorem rewritten_markup_stable (self : Runner (Procedure γ) (World γ τ) Datum) {markup written again : String}
    {state state' : State (Procedure γ) (World γ τ) Datum}
    (ran : (rewriteTwice markup).run self state = .ok (written, again) state') : again = written := by
  obtain ⟨first, middle, one, ran⟩ := Program.bind_ok ran
  obtain ⟨_, carries⟩ := run_readFragment self one
  obtain ⟨second, final, two, ran⟩ := Program.bind_ok (show (readFragment (middle.outside.document.inner first) >>=
    fun second => do return (middle.outside.document.inner first, ← seeDocument (·.inner second))).run self middle = _ from ran)
  obtain ⟨complete, carries'⟩ := run_readFragment self two
  obtain ⟨⟨rfl, rfl⟩, _⟩ : (middle.outside.document.inner first = written ∧ final.outside.document.inner second = again) ∧
      final = state' := by
    obtain ⟨same, last⟩ := EStateM.Result.ok.inj ran
    exact ⟨Prod.mk.inj same, last⟩
  rw [carries.inner] at complete carries'
  rw [carries'.inner, carries.inner, Tree.read_renderForest_read complete]
  exact Tree.renderAll_joinedAll false _

theorem read_unclosed : read "<p>a</i>b" = ⟨[.element "p" false [] [.text "a", .text "b"]], true⟩ := by
  have p : ReadableTag "p" := by decide
  have i : ReadableTag "i" := by decide
  have bare : ReadableNames [] := by simp [ReadableNames]
  have a : "a".toList = 'a' :: [] := rfl
  have b : "b".toList = 'b' :: [] := rfl
  have first := scan_startTag Entity.escaping_allMarks (by decide) p (by decide) bare "a</i>b".toList
  have second := (scan_text Entity.escaping_allMarks (by decide) a "</i>b".toList (by simp)).1 rfl
  have third := scan_endTag i ['b']
  have fourth := (scan_text Entity.escaping_allMarks (by decide) b [] (by simp)).1 rfl
  have scanned : Piece.scan "<p>a</i>b".toList = ([.startTag "p" [] false, .text "a", .endTag "i", .text "b"], true) := by
    refine first.trans ?_
    rw [show Piece.scan "a</i>b".toList = _ from second, show Piece.scan "</i>b".toList = _ from third,
      show Piece.scan ['b'] = _ from fourth, Piece.scan]
    rfl
  rw [Markup.read, scanned]
  rfl

/-- What is written of an unclosed paragraph stays, although its texts have become one. -/
theorem rewritten_markup_stable_unclosed :
    ∃ (self : Runner (Procedure Empty) (World Empty Unit) Datum) (again : String) (state' : _),
      (rewriteTwice "<p>a</i>b").run self { outside := { host := () } } = .ok ("<p>ab</p>", again) state' ∧
        again = "<p>ab</p>" := by
  have durable : Tree.Durable [.element "p" false [] [.text "ab"]] := by decide +kernel
  have ensured : (rewriteTwice "<p>a</i>b").Ensures (Procedure.meaning ⟨nofun, nofun, nofun, nofun, nofun⟩) 0 {}
      ({ host := () } : World Empty Unit) fun result _ _ => result.1 = "<p>ab</p>" := by
    refine (ensures_readFragment read_unclosed).bind ?_
    rintro _ _ _ ⟨rfl, rfl, rfl⟩
    have inner := (carriesForest_ofTrees ({} : Document Empty Property) (read "<p>a</i>b").forest).inner
    rw [read_unclosed] at inner
    have written : Tree.renderForest [.element "p" false [] [.text "a", .text "b"]] = "<p>ab</p>" := by decide +kernel
    rw [written] at inner
    refine Program.seeing_then ?_
    simp only [inner]
    refine (ensures_readFragment (durable.read (Tree.spelled_renderAll _))).bind ?_
    rintro _ _ _ ⟨rfl, rfl, rfl⟩
    exact Program.seeing_then (Program.ensures_pure rfl)
  obtain ⟨⟨written, again⟩, graph', outside', history', ran, rfl⟩ := ensured 0 [] (Nat.le_refl 0)
  exact ⟨_, again, _, ran, rewritten_markup_stable _ ran⟩

end LiveMarkup.Live
