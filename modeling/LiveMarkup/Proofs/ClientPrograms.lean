import LiveMarkup.Codegen.Client
import LiveMarkup.Proofs.DeclarationTables
import LiveMarkup.Proofs.Skeletons
import Mathlib.Data.List.Forall2

/-!
The client's program of an element: its markup is what is written of the element's skeleton, and its references are
those of the elements that change and of the markers, in document order. Each is reached from one that is there before
it, and each call is made on the reference of the node that it belongs to.
-/

namespace LiveMarkup.Codegen
open Blueprint Markup List Prod Entity StaticAttributes Attribute Nat

/-- How many calls are made on an element: one for each attribute that changes, and one for a sole child that does. -/
def callsOn (attributes : List Attribute) (children : List Node) : Nat :=
  attributes.countP Attribute.dynamic + if isSole children then 1 else 0

mutual

/-- Where the nodes stand that need a reference, in document order, and how many calls are made on each. -/
def sites (address : Address) : Node → List (Address × Nat)
  | .element element attributes children =>
    (if element.dynamic then [(address, callsOn attributes children)] else []) ++
      if isSole children then [] else sitesBelow address 0 "" children
  | .text _ => [(address, 1)]
  | .expression _ _ => [(address, 1)]
  | .component _ _ _ => [(address, 1)]

def sitesBelow (parent : Address) (index : Nat) (run : String) : List Node → List (Address × Nat)
  | [] => []
  | node :: rest =>
    match staticText? node with
    | some text => sitesBelow parent index (run ++ text) rest
    | none =>
      sites ((index + (textTrees run).length) :: parent) node ++
        sitesBelow parent (index + (textTrees run).length + 1) "" rest

end

def targets (sites : List (Address × Nat)) : List Address := sites.flatMap fun site => replicate site.2 site.1

section Logic

variable {α β : Type} {program : ClientProgram} {act : ClientGen α} {post : α → ClientProgram → Prop}

def Makes (act : ClientGen α) (program : ClientProgram) (post : α → ClientProgram → Prop) : Prop :=
  ∀ context, post (act program context).1.1 (act program context).1.2

theorem makes_pure {value : α} (holds : post value program) : Makes (pure value) program post := fun _ => holds

theorem Makes.bind {next : α → ClientGen β} {middle : α → ClientProgram → Prop} {post : β → ClientProgram → Prop}
    (first : Makes act program middle) (then_ : ∀ value after, middle value after → Makes (next value) after post) :
    Makes (act >>= next) program post :=
  fun context => then_ _ _ (first context) (act program context).2

theorem Makes.mono {wider : α → ClientProgram → Prop} (makes : Makes act program post)
    (implies : ∀ value after, post value after → wider value after) : Makes act program wider :=
  fun context => implies _ _ (makes context)

theorem Makes.discard {post : Unit → ClientProgram → Prop} (makes : Makes act program fun _ after => post () after) :
    Makes (discard act) program post :=
  fun context => makes context

theorem makes_lift (act : Gen α) : Makes (act : ClientGen α) program fun _ after => after = program := fun _ => rfl

end Logic

section Charts

variable {located : List (Address × String)} {program : ClientProgram} {address : Address} {name : String}
variable {final : List (Address × String)} {walks : List Walk}

def stepFrom : Address → Char → Option Address
  | address, 'f' => some (0 :: address)
  | index :: parent, 'n' => some ((index + 1) :: parent)
  | _, _ => none

def advance (address : Address) (path : List Char) : Option Address := path.foldlM stepFrom address

/-- Walks add references to those that are there: each leads from one of these to another address and gives it a name
that is not taken. -/
inductive Chart : List (Address × String) → List Walk → List (Address × String) → Prop
  | nil {located : List (Address × String)} : Chart located [] located
  | cons {located final : List (Address × String)} {walks : List Walk} {origin address : Address}
      {start path name : String} (known : (origin, start) ∈ located)
      (leads : advance origin path.toList = some address) (fresh : name ∉ located.map Prod.snd)
      (later : Chart (located ++ [(address, name)]) walks final) : Chart located (⟨name, start, path⟩ :: walks) final

theorem Chart.subset (chart : Chart located walks final) : located ⊆ final := by
  induction chart with
  | nil => exact Subset.refl _
  | cons _ _ _ _ ih => exact fun entry mem => ih (mem_append_left _ mem)

theorem Chart.concat (chart : Chart located walks final) {origin : Address} {start path : String}
    (known : (origin, start) ∈ final) (leads : advance origin path.toList = some address) (fresh : name ∉ final.map snd) :
    Chart located (walks ++ [⟨name, start, path⟩]) (final ++ [(address, name)]) := by
  induction chart with
  | nil => exact .cons known leads fresh .nil
  | cons here onward new _ ih => exact .cons here onward new (ih known fresh)

theorem nodup_concat (once : (located.map snd).Nodup) (fresh : name ∉ located.map snd) :
    ((located ++ [(address, name)]).map snd).Nodup := by
  rw [map_append, nodup_append]
  refine ⟨once, by simp, ?_⟩
  rintro _ old _ new rfl
  obtain rfl := mem_singleton.mp new
  exact fresh old

theorem advance_append (address : Address) (path more : List Char) :
    advance address (path ++ more) = (advance address path).bind fun middle => advance middle more :=
  foldlM_append

theorem advance_steps (index n : Nat) (parent : Address) :
    advance (index :: parent) (ClientProgram.steps n).toList = some ((index + n) :: parent) := by
  rw [ClientProgram.steps, String.toList_ofList]
  induction n generalizing index with
  | zero => rfl
  | succ n ih =>
    have first : advance (index :: parent) (replicate (n + 1) 'n') =
        advance ((index + 1) :: parent) (replicate n 'n') := rfl
    rw [first, ih, Nat.add_right_comm, Nat.add_assoc]

theorem localAt?_some (found : program.localAt? address = some name) : (address, name) ∈ program.located := by
  obtain ⟨⟨a, _⟩, here, rfl⟩ := Option.map_eq_some_iff.mp found
  obtain rfl : a = address := by simpa using find?_some here
  exact mem_of_find?_eq_some here

theorem localAt?_none : program.localAt? address = none ↔ address ∉ program.located.map fst := by
  rw [ClientProgram.localAt?, Option.map_eq_none_iff, find?_eq_none]
  simp only [mem_map, not_exists, not_and, beq_iff_eq]

theorem siblingBelow_some {parent : Address} {index i : Nat} (found : program.siblingBelow parent index = some (i, name)) :
    i < index ∧ (i :: parent, name) ∈ program.located := by
  induction index with
  | zero => cases found
  | succ n ih =>
    rw [ClientProgram.siblingBelow] at found
    split at found
    · rename_i here
      obtain ⟨rfl, rfl⟩ := mk.inj (Option.some.inj found)
      exact ⟨lt_succ_self n, localAt?_some here⟩
    · obtain ⟨low, mem⟩ := ih found
      exact ⟨lt_succ_of_lt low, mem⟩

theorem resolve_leads (root : ([], ClientProgram.rootName) ∈ program.located) (address : Address) :
    ∃ origin, (origin, (program.resolve address).1) ∈ program.located ∧
      advance origin (program.resolve address).2.toList = some address := by
  induction address with
  | nil => exact ⟨[], root, rfl⟩
  | cons index parent ih =>
    rw [ClientProgram.resolve]
    cases here : program.localAt? (index :: parent) with
    | some => exact ⟨_, localAt?_some here, rfl⟩
    | none =>
      cases beside : program.siblingBelow parent index with
      | some sibling =>
        obtain ⟨i, _⟩ := sibling
        obtain ⟨_, mem⟩ := siblingBelow_some beside
        refine ⟨i :: parent, mem, ?_⟩
        have total : i + (index - i) = index := by omega
        rw [advance_steps, total]
      | none =>
        obtain ⟨origin, mem, leads⟩ := ih
        refine ⟨origin, mem, ?_⟩
        rw [String.toList_append, String.toList_append, append_assoc, advance_append, leads]
        show advance (0 :: parent) (ClientProgram.steps index).toList = _
        rw [advance_steps, Nat.zero_add]

end Charts

def bases : List String := ["__el", "__m"]

theorem apart_bases : Declarations.Apart {base | base ∈ bases} := by
  intro base one other two
  simp only [bases, Set.mem_ofPred_eq, mem_cons, not_mem_nil, or_false] at one two
  rcases one with rfl | rfl <;> rcases two with rfl | rfl <;> rintro ⟨digits, -, -, same⟩ <;> simp at same

/-- What a client's program needs a reference to, and where it stands below the root. -/
inductive Need where
  | element (address : Address)
  | marker (address : Address)
  deriving Repr, BEq, DecidableEq

namespace Need

def address : Need → Address
  | .element address => address
  | .marker address => address

def base : Need → String
  | .element _ => "__el"
  | .marker _ => "__m"

theorem base_mem : (need : Need) → need.base ∈ bases
  | .element _ => mem_cons_self
  | .marker _ => mem_cons_of_mem _ mem_cons_self

def IsMet (need : Need) (entry : Address × String) : Prop :=
  entry.1 = need.address ∧ ∃ n, entry.2 = Declarations.nameFor need.base n

end Need

mutual

/-- What is needed in document order: the elements that are marked, and a marker for each child that changes unless it is the
only one of its parent. -/
def needs (address : Address) : Node → List Need
  | .text _ => []
  | .expression given _ => if given.dynamic then [.marker address] else []
  | .component _ _ _ => [.marker address]
  | .element element _ children =>
    (if element.dynamic then [.element address] else []) ++
      if isSole children then [] else needsBelow address 0 "" children

/-- What is needed of children, the first of which stand at an index behind the text `run`. -/
def needsBelow (parent : Address) (index : Nat) (run : String) : List Node → List Need
  | [] => []
  | node :: rest =>
    match staticText? node with
    | some text => needsBelow parent index (run ++ text) rest
    | none =>
      needs ((index + (textTrees run).length) :: parent) node ++
        needsBelow parent (index + (textTrees run).length + 1) "" rest

end

def innerNeeds (address : Address) (children : List Node) : List Need :=
  if isSole children then [] else needsBelow address 0 "" children

variable {statement : Statement} {inner : ClientGen Unit}

section Growth

variable {address : Address} {base : String}

/-- The references of a program are charted, and their names are among those that were given. -/
structure Charted (program : ClientProgram) : Prop where
  chart : Chart [([], ClientProgram.rootName)] program.walks program.located
  given : ∀ entry ∈ program.located, ∃ base ∈ bases, ∃ n, n ≤ program.names.countOf base ∧
    entry.2 = Declarations.nameFor base n

theorem charted_start : Charted .start := by
  refine ⟨.nil, fun entry mem => ?_⟩
  obtain rfl := mem_singleton.mp mem
  exact ⟨"__el", by decide, 1, by decide, rfl⟩

def Statement.target : Statement → String
  | .bind _ target _ _ => target
  | .spread target _ => target
  | .reference target _ => target
  | .listen target _ _ _ => target
  | .directive target _ _ => target
  | .insert target _ => target
  | .insertAtMarker marker _ => marker

/-- What a program has gained: markup, the references that are needed, no two of them to one node, and calls on references. -/
structure Gained (program after : ClientProgram) (html : List Char) (needed : List Need) (calls : List Address) : Prop where
  html_eq : after.html.toList = program.html.toList ++ html
  located : ∃ more, after.located = program.located ++ more ∧ Forall₂ Need.IsMet needed more
  once : (program.located.map Prod.fst).Nodup → (after.located.map Prod.fst).Nodup
  statements : ∃ more, after.statements = program.statements ++ more ∧
    Forall₂ (fun statement address => (address, statement.target) ∈ after.located) more calls
  charted : Charted program → Charted after

variable {program middle after : ClientProgram} {html more : List Char} {needed others : List Need} {calls further : List Address}

theorem Gained.refl (program : ClientProgram) : Gained program program [] [] [] :=
  ⟨by simp, ⟨[], by simp, .nil⟩, id, ⟨[], by simp, .nil⟩, id⟩

theorem Gained.trans (one : Gained program middle html needed calls) (two : Gained middle after more others further) :
    Gained program after (html ++ more) (needed ++ others) (calls ++ further) := by
  obtain ⟨entries, first, met⟩ := one.located
  obtain ⟨entries', second, met'⟩ := two.located
  obtain ⟨made, before, each⟩ := one.statements
  obtain ⟨made', behind, each'⟩ := two.statements
  refine ⟨by rw [two.html_eq, one.html_eq, append_assoc],
    ⟨entries ++ entries', by rw [second, first, append_assoc], rel_append met met'⟩,
    fun once => two.once (one.once once), ⟨made ++ made', by rw [behind, before, append_assoc], ?_⟩,
    fun charted => two.charted (one.charted charted)⟩
  refine rel_append (each.imp fun statement address mem => ?_) each'
  rw [second]
  exact mem_append_left _ mem

theorem map_address {entries : List (Address × String)} (met : Forall₂ Need.IsMet needed entries) :
    entries.map fst = needed.map Need.address := by
  induction met with
  | nil => rfl
  | cons here _ ih => rw [map_cons, map_cons, here.1, ih]

theorem Gained.addresses (gained : Gained program after html needed calls) :
    after.located.map fst = program.located.map fst ++ needed.map Need.address := by
  obtain ⟨_, same, met⟩ := gained.located
  rw [same, map_append, map_address met]

theorem gained_emit (program : ClientProgram) (html : String) :
    Gained program { program with html := program.html ++ html } html.toList [] [] :=
  ⟨by simp, ⟨[], by simp, .nil⟩, id, ⟨[], by simp, .nil⟩, fun charted => ⟨charted.chart, charted.given⟩⟩

theorem makes_emit (html : String) :
    Makes (ClientGen.emit html) program fun _ after => Gained program after html.toList [] [] :=
  fun _ => gained_emit program html

theorem makes_recordStatement (mem : (address, statement.target) ∈ program.located) :
    Makes (recordStatement statement) program fun _ after => Gained program after [] [] [address] := by
  have stated : Gained program { program with statements := program.statements ++ [statement] } [] [] [address] :=
    ⟨by simp, ⟨[], by simp, .nil⟩, id, ⟨[statement], rfl, .cons mem .nil⟩, fun charted => ⟨charted.chart, charted.given⟩⟩
  exact fun _ => stated

def reaching (program : ClientProgram) (base : String) (address : Address) : ClientProgram :=
  let name := (program.names.declare base "").1
  { program with
    names := (program.names.declare base "").2
    walks := program.walks ++ [⟨name, (program.resolve address).1, (program.resolve address).2⟩]
    located := program.located ++ [(address, name)] }

theorem charted_reaching (known : base ∈ bases) (charted : Charted program) (address : Address) :
    Charted (reaching program base address) := by
  have counts : ∀ other, (program.names.declare base "").2.countOf other =
      if other = base then program.names.countOf base + 1 else program.names.countOf other :=
    fun other => Declarations.countOf_bump base other program.names
  obtain ⟨_, mem, leads⟩ := resolve_leads (charted.chart.subset (by simp)) address
  refine ⟨charted.chart.concat mem leads fun taken => ?_, fun entry member => ?_⟩
  · obtain ⟨entry, member, same⟩ := mem_map.mp taken
    obtain ⟨_, one, _, _, named⟩ := charted.given entry member
    obtain ⟨rfl, rfl⟩ := Declarations.nameFor_inj apart_bases one known (named.symm.trans same)
    omega
  · rcases mem_append.mp member with old | new
    · obtain ⟨other, one, n, bound, named⟩ := charted.given entry old
      refine ⟨other, one, n, ?_, named⟩
      rw [reaching, counts]
      split
      · rename_i same
        rw [same] at bound
        omega
      · exact bound
    · obtain rfl := mem_singleton.mp new
      have last := (counts base).trans (if_pos rfl)
      exact ⟨base, known, program.names.countOf base + 1, le_of_eq last.symm, rfl⟩

theorem makes_reach_known (base : String) (known : address ∈ program.located.map fst) :
    Makes (ClientGen.reach base address) program fun name after => after = program ∧ (address, name) ∈ program.located := by
  intro context
  cases found : program.localAt? address with
  | none => exact absurd known (localAt?_none.mp found)
  | some name =>
    have same : ClientGen.reach base address program context = ((name, program), context) := by
      show (match program.localAt? address with
        | some name => pure name
        | none => _ : ClientGen String) program context = _
      rw [found]
      rfl
    rw [same]
    exact ⟨rfl, localAt?_some found⟩

theorem reach_fresh (base : String) (fresh : address ∉ program.located.map fst) (context : Context) :
    (ClientGen.reach base address program context).1 = ((program.names.declare base "").1, reaching program base address) := by
  show ((match program.localAt? address with
    | some name => pure name
    | none => _ : ClientGen String) program context).1 = _
  rw [localAt?_none.mpr fresh]
  rfl

theorem makes_reach (need : Need) (fresh : need.address ∉ program.located.map fst) :
    Makes (ClientGen.reach need.base need.address) program fun name after =>
      Gained program after [] [need] [] ∧ (need.address, name) ∈ after.located := by
  intro context
  rw [reach_fresh need.base fresh context]
  refine ⟨⟨by simp [reaching], ⟨[(need.address, _)], rfl, .cons ⟨rfl, _, rfl⟩ .nil⟩, fun once => ?_,
    ⟨[], by simp [reaching], .nil⟩, fun charted => charted_reaching need.base_mem charted need.address⟩, by simp [reaching]⟩
  show ((program.located ++ [_]).map fst).Nodup
  rw [map_append, map_singleton, ← concat_eq_append]
  exact once.concat fresh

end Growth

section Calls

variable {program : ClientProgram} {address : Address} {target : String}

theorem isSome_attributeStatement? (target : String) (entry : Attribute) :
    (attributeStatement? target entry).isSome = entry.dynamic := by
  cases entry with
  | value kind _ given =>
    cases property : kind == .property <;> cases changes : given.dynamic <;>
      simp [attributeStatement?, takes, dynamic, bne, property, changes]
  | _ => rfl

theorem target_attributeStatement? {entry : Attribute}
    (found : attributeStatement? target entry = some statement) : statement.target = target := by
  cases entry with
  | value =>
    rw [attributeStatement?] at found
    split at found
    · cases found
    · obtain rfl := Option.some.inj found
      rfl
  | _ =>
    obtain rfl := Option.some.inj found
    rfl

theorem perm_orderStatements (early late : List Statement) (toggled : Bool) (statements : List Statement) :
    (orderStatements early late toggled statements).Perm (early ++ late ++ statements) := by
  fun_induction orderStatements early late toggled statements with
  | case1 => simp
  | case2 _ _ _ _ _ _ _ ih => simpa using ih
  | case3 early late _ statement rest _ _ ih =>
    refine ih.trans ?_
    rw [append_assoc, append_assoc, append_assoc]
    have moved : (statement :: (late ++ rest)).Perm (late ++ statement :: rest) := perm_middle.symm
    exact moved.append_left early

theorem makes_recorded (statements : List Statement) (program : ClientProgram) :
    Makes (forIn statements PUnit.unit fun statement _ => do
        recordStatement statement
        return ForInStep.yield PUnit.unit) program
      fun _ after => after = { program with statements := program.statements ++ statements } := by
  induction statements generalizing program with
  | nil => exact makes_pure (by simp)
  | cons statement statements ih =>
    rw [forIn_cons]
    have first : Makes (do
        recordStatement statement
        return ForInStep.yield PUnit.unit) program
        fun step after => step = .yield PUnit.unit ∧
          after = { program with statements := program.statements ++ [statement] } := fun _ => ⟨rfl, rfl⟩
    refine first.bind ?_
    rintro _ _ ⟨rfl, rfl⟩
    refine (ih _).mono ?_
    rintro _ _ rfl
    simp

theorem forall₂_replicate {α β : Type} {R : α → β → Prop} {items : List α} {b : β} (each : ∀ a ∈ items, R a b) :
    Forall₂ R items (replicate items.length b) := by
  induction items with
  | nil => exact .nil
  | cons a _ ih => exact .cons (each a (by simp)) (ih fun other mem => each other (mem_cons_of_mem a mem))

theorem gained_calls {attrs : List Attribute} (mem : (address, target) ∈ program.located) : Gained program
      { program with
        statements := program.statements ++ orderStatements [] [] false (attrs.filterMap (attributeStatement? target)) }
      [] []
      (replicate (attrs.countP dynamic) address) := by
  have order := perm_orderStatements [] [] false (attrs.filterMap (attributeStatement? target))
  have count : (orderStatements [] [] false (attrs.filterMap (attributeStatement? target))).length =
      attrs.countP dynamic := by
    rw [order.length_eq, nil_append, nil_append, length_filterMap_eq_countP]
    simp only [isSome_attributeStatement?]
  refine ⟨by simp, ⟨[], by simp, .nil⟩, id, ⟨_, rfl, ?_⟩, fun charted => ⟨charted.chart, charted.given⟩⟩
  rw [← count]
  refine forall₂_replicate fun statement member => ?_
  obtain ⟨_, _, found⟩ := mem_filterMap.mp (order.mem_iff.mp member)
  rw [target_attributeStatement? found]
  exact mem

theorem makes_clientElement {address : Address} {element : Blueprint.Element} {attrs : List Attribute} (begun filled : ClientProgram → Prop)
    (called : attrs.any dynamic = true → Makes (ClientGen.reach "__el" address) program fun target reached =>
      begun { reached with
        statements := reached.statements ++ orderStatements [] [] false (attrs.filterMap (attributeStatement? target)) })
    (still : attrs.any dynamic = false → begun program)
    (within : ∀ start, begun start → Makes inner { start with html := start.html ++ ("<" ++ element.tag ++
      String.join ((ofAttributes attrs).merged.map renderAttribute) ++ ">") } fun _ after => filled after) :
    Makes (clientElement address element attrs inner) program fun _ after => ∃ between, filled between ∧
      after = { between with html := between.html ++ if element.isVoid then "" else "</" ++ element.tag ++ ">" } := by
  have body : ∀ start, begun start → Makes (do
        ClientGen.emit ("<" ++ element.tag ++
          String.join ((ofAttributes attrs).merged.map renderAttribute) ++ ">")
        inner
        if (!element.isVoid) = true then ClientGen.emit ("</" ++ element.tag ++ ">") else pure ()) start fun _ after =>
      ∃ between, filled between ∧
        after = { between with html := between.html ++ if element.isVoid then "" else "</" ++ element.tag ++ ">" } := by
    intro start holds
    have mem : Makes (ClientGen.emit _ >>= fun _ => inner) start fun _ after => filled after := fun context =>
      within start holds context
    rw [← bind_assoc]
    refine mem.bind fun _ between done => ?_
    cases element.isVoid with
    | true => exact makes_pure ⟨between, done, by simp⟩
    | false => exact fun _ => ⟨between, done, rfl⟩
  unfold clientElement
  simp only [isSome_attributeStatement?]
  split
  · rename_i dynamic
    refine (called dynamic).bind fun target reached holds => ?_
    refine (makes_recorded _ reached).bind ?_
    rintro _ _ rfl
    exact body _ holds
  · rename_i fixed
    exact body program (still (by simpa using fixed))

end Calls

section Tags

variable {program : ClientProgram}

def openChars (tag : String) (attributes : Attributes) : List Char :=
  '<' :: tag.toList ++ attributes.flatMap (Tree.attributeChars Entity.allMarks) ++ ['>']

theorem toList_openTag (tag : String) (attrs : Attributes) :
    ("<" ++ tag ++ String.join (attrs.map renderAttribute) ++ ">").toList = openChars tag attrs := by
  have entries : (String.join (attrs.map renderAttribute)).toList =
      attrs.flatMap (Tree.attributeChars allMarks) := by
    induction attrs with
    | nil => rfl
    | cons _ _ ih =>
      simp [String.join_cons, renderAttribute, Tree.attributeChars, escapeAll, ih]
  simp [openChars, entries]

theorem makes_tags {address : Address} {element : Blueprint.Element} {attrs : List Attribute}
    {needed : List Need} {calls : List Address} (written : List Char → Prop)
    (known : attrs.any dynamic = true → address ∈ program.located.map fst)
    (within : ∀ middle, middle.located.map fst = program.located.map fst →
      Makes inner middle fun _ after => ∃ html, Gained middle after html needed calls ∧ written html) :
    Makes (clientElement address element attrs inner) program fun _ after => ∃ html, written html ∧
      Gained program after (openChars element.tag (ofAttributes attrs).merged ++ html ++
          if element.isVoid then [] else '<' :: '/' :: element.tag.toList ++ ['>'])
        needed (replicate (attrs.countP dynamic) address ++ calls) := by
  refine (makes_clientElement
    (fun start => Gained program start [] [] (replicate (attrs.countP dynamic) address))
    (fun filled => ∃ html, written html ∧
      Gained program filled (openChars element.tag (ofAttributes attrs).merged ++ html) needed
        (replicate (attrs.countP dynamic) address ++ calls))
    (fun dynamic => ?_) (fun still => ?_) fun start called => ?_).mono ?_
  · refine (makes_reach_known "__el" (known dynamic)).mono ?_
    rintro _ _ ⟨rfl, mem⟩
    exact gained_calls mem
  · have none : attrs.countP dynamic = 0 := by
      rw [countP_eq_zero]
      simpa using still
    simpa [none] using Gained.refl program
  · have opened := called.trans (gained_emit start ("<" ++ element.tag ++
      String.join ((ofAttributes attrs).merged.map renderAttribute) ++ ">"))
    rw [toList_openTag] at opened
    refine (within _ (by simpa using opened.addresses)).mono ?_
    rintro _ _ ⟨html, more, holds⟩
    exact ⟨html, holds, by simpa using opened.trans more⟩
  · rintro _ _ ⟨filled, ⟨html, holds, gained⟩, rfl⟩
    have closed := gained.trans (gained_emit filled (if element.isVoid then "" else "</" ++ element.tag ++ ">"))
    refine ⟨html, holds, ?_⟩
    cases void : element.isVoid <;> simpa [void] using closed

end Tags

section Clearance

variable {program after : ClientProgram} {parent : Address} {index : Nat} {need : Need}

mutual

theorem needs_below (address : Address) (node : Node) (mem : need ∈ needs address node) :
    ∃ front, need.address = front ++ address := by
  match node with
  | .text _ => cases mem
  | .expression _ _ =>
    rw [needs] at mem
    split at mem
    · obtain rfl := mem_singleton.mp mem
      exact ⟨[], rfl⟩
    · cases mem
  | .component _ _ _ =>
    obtain rfl := mem_singleton.mp mem
    exact ⟨[], rfl⟩
  | .element _ _ children =>
    rw [needs] at mem
    rcases mem_append.mp mem with own | inner
    · split at own
      · obtain rfl := mem_singleton.mp own
        exact ⟨[], rfl⟩
      · cases own
    · split at inner
      · cases inner
      · obtain ⟨front, i, same⟩ := needsBelow_below address 0 "" children inner
        exact ⟨front ++ [i], by simp [same]⟩

theorem needsBelow_below (parent : Address) (index : Nat) (run : String) (nodes : List Node)
    (mem : need ∈ needsBelow parent index run nodes) : ∃ front i, need.address = front ++ i :: parent := by
  match nodes with
  | [] => cases mem
  | node :: rest =>
    rw [needsBelow] at mem
    split at mem
    · exact needsBelow_below parent index _ rest mem
    · rcases mem_append.mp mem with here | later
      · obtain ⟨front, same⟩ := needs_below _ node here
        exact ⟨front, _, same⟩
      · exact needsBelow_below parent _ "" rest later

end

def Clear (program : ClientProgram) (parent : Address) (index : Nat) : Prop :=
  ∀ front i, front ++ i :: parent ∈ program.located.map Prod.fst → i < index

section

variable (clear : Clear program parent index)
include clear

theorem Clear.mono {later : Nat} (more : index ≤ later) : Clear program parent later :=
  fun front i mem => (clear front i mem).trans_le more

theorem Clear.fresh : index :: parent ∉ program.located.map fst :=
  fun mem => lt_irrefl index (clear [] index mem)

theorem Clear.below : Clear program (index :: parent) 0 := by
  intro front i mem
  exact absurd (clear (front ++ [i]) index (by simpa using mem)) (lt_irrefl index)

theorem Clear.of_addresses (same : after.located.map fst = program.located.map fst) : Clear after parent index :=
  fun front i mem => clear front i (same ▸ mem)

end

theorem Clear.reached {address : Address} (clear : Clear program address 0)
    (addresses : after.located.map fst = program.located.map fst ++ [address]) : Clear after address 0 := by
  intro front i mem
  rw [addresses] at mem
  rcases mem_append.mp mem with old | new
  · exact clear front i old
  · have length := congrArg length (mem_singleton.mp new)
    simp only [length_append, length_cons] at length
    omega

theorem Clear.next {added : List Address} (clear : Clear program parent index)
    (addresses : after.located.map fst = program.located.map fst ++ added)
    (within : ∀ address ∈ added, ∃ front, address = front ++ index :: parent) : Clear after parent (index + 1) := by
  intro front i mem
  rw [addresses] at mem
  rcases mem_append.mp mem with old | new
  · exact lt_succ_of_lt (clear front i old)
  · obtain ⟨_, same⟩ := within _ new
    obtain ⟨_, tails⟩ := append_inj' same (by simp)
    obtain rfl := (cons.inj tails).1
    exact lt_succ_self i

end Clearance

section Children

variable {program : ClientProgram} {inSvg : Bool}
variable {element : Blueprint.Element} {attrs : List Attribute} {children : List Node} {parent : Address} {node : Node}
variable {cursor : ChildCursor}

def innerSites (address : Address) (children : List Node) : List (Address × Nat) :=
  if isSole children then [] else sitesBelow address 0 "" children

theorem makes_marker (clear : Clear program parent cursor.index) (code : String) :
    Makes (clientRegion false parent cursor code) program fun next after => next = ⟨cursor.index + 1, false⟩ ∧
      Gained program after "<!--$-->".toList [.marker (cursor.index :: parent)] [cursor.index :: parent] := by
  unfold clientRegion
  rw [if_neg (by decide)]
  refine (makes_emit _).bind fun _ marked one => ?_
  have fresh : cursor.index :: parent ∉ marked.located.map fst := by
    rw [one.addresses, map_nil, append_nil]
    exact clear.fresh
  refine (makes_reach (.marker (cursor.index :: parent)) fresh).bind ?_
  rintro _ _ ⟨two, mem⟩
  refine (makes_recordStatement mem).bind fun _ after three => makes_pure ⟨rfl, ?_⟩
  simpa [Need.address] using (one.trans two).trans three

theorem makes_whole (known : parent ∈ program.located.map fst) (code : String) :
    Makes (clientRegion true parent cursor code) program fun _ after => Gained program after [] [] [parent] := by
  unfold clientRegion
  rw [if_pos rfl]
  refine (makes_reach_known "__el" known).bind ?_
  rintro _ _ ⟨rfl, mem⟩
  exact (makes_recordStatement mem).bind fun _ after gained => makes_pure gained

theorem makes_component {sole : Bool} {component : Component} {slot : Slot} {post : ChildCursor → ClientProgram → Prop}
    (region : ∀ call, Makes (clientRegion sole parent cursor call) program post) :
    Makes (clientChild sole parent cursor (.component component attrs slot)) program post := by
  rw [clientChild]
  refine (makes_lift (clientSlot slot)).bind ?_
  rintro children _ rfl
  refine (makes_lift (componentCall component.path attrs children)).bind ?_
  rintro call _ rfl
  exact region call

theorem makes_sole (dynamic : node.dynamic = true) (known : parent ∈ program.located.map fst) :
    Makes (clientChildren true parent {} [node]) program fun _ after => Gained program after [] [] [parent] := by
  have child : Makes (clientChild true parent {} node) program fun _ after => Gained program after [] [] [parent] := by
    cases node with
    | text => cases dynamic
    | element => cases dynamic
    | expression given =>
      rw [clientChild, if_pos (show given.dynamic = true from dynamic)]
      exact makes_whole known _
    | component =>
      exact makes_component fun call => makes_whole known call
  rw [clientChildren]
  refine child.bind fun cursor after gained => ?_
  rw [clientChildren]
  exact makes_pure gained

def cursorBehind (index : Nat) (run : String) : ChildCursor := ⟨index + (textTrees run).length, run ≠ ""⟩

theorem makes_text (index : Nat) (run text : String) :
    Makes (clientText (cursorBehind index run) text) program fun next after => next = cursorBehind index (run ++ text) ∧
      Gained program after (escape allMarks text.toList) [] [] := by
  unfold clientText
  split
  · rename_i empty
    obtain rfl : text = "" := String.isEmpty_iff.mp empty
    exact makes_pure ⟨by simp, .refl program⟩
  · rename_i some
    have nonempty : text ≠ "" := fun none => some (by simp [none])
    have joined : run ++ text ≠ "" := by simp [nonempty]
    refine (makes_emit _).bind fun _ after gained => makes_pure ⟨?_, by simpa [escapeAll] using gained⟩
    by_cases first : run = ""
    · simp [cursorBehind, textTrees, first, nonempty]
    · simp [cursorBehind, textTrees, first]

theorem chars_textTrees (run : String) (trees : List Tree) : Tree.charsOfAll allMarks (textTrees run ++ trees) =
      escape allMarks run.toList ++ Tree.charsOfAll allMarks trees := by
  unfold textTrees
  split
  · rename_i none
    rw [none]
    rfl
  · rfl

theorem targets_append (first second : List (Address × Nat)) : targets (first ++ second) = targets first ++ targets second :=
  flatMap_append

theorem chars_skeleton (built : BuiltElement inSvg element attrs children) :
    (skeleton (.element element attrs children)).chars allMarks =
      openChars element.tag (ofAttributes attrs).merged ++
        Tree.charsOfAll allMarks (if isSole children then [] else skeletons "" children) ++
          if element.isVoid then [] else '<' :: '/' :: element.tag.toList ++ ['>'] := by
  rw [skeleton, Tree.chars, isVoid_eq built]
  cases void : element.isVoid with
  | true =>
    have none : (if isSole children then [] else skeletons "" children) = [] := by
      rw [built.empty void]
      rfl
    simp [openChars, none, Tree.charsOfAll]
  | false => simp [openChars]

def ChildrenMade (nodes : List Node) : Prop :=
  ∀ (sole : Bool) (parent : Address) (index : Nat) (run : String) (program : ClientProgram),
    (sole = true → ∀ node ∈ nodes, node.dynamic = false) → Clear program parent (index + (textTrees run).length) →
    Makes (clientChildren sole parent (cursorBehind index run) nodes) program fun _ after => ∃ html,
      Gained program after html (needsBelow parent index run nodes) (targets (sitesBelow parent index run nodes)) ∧
        ∀ inSvg, BuiltAll inSvg nodes →
          Entity.escape Entity.allMarks run.toList ++ html = Tree.charsOfAll Entity.allMarks (skeletons run nodes)

def ChildMade (node : Node) : Prop :=
  ∀ (sole : Bool) (parent : Address) (index : Nat) (run : String) (program : ClientProgram),
    (sole = true → node.dynamic = false) → Clear program parent (index + (textTrees run).length) →
    Makes (clientChild sole parent (cursorBehind index run) node) program fun next after =>
      match staticText? node with
      | some text => next = cursorBehind index (run ++ text) ∧
        Gained program after (Entity.escape Entity.allMarks text.toList) [] []
      | none => next = cursorBehind (index + (textTrees run).length + 1) "" ∧ ∃ html,
        Gained program after html (needs ((index + (textTrees run).length) :: parent) node)
            (targets (sites ((index + (textTrees run).length) :: parent) node)) ∧
          ∀ inSvg, Built inSvg node → html = (skeleton node).chars Entity.allMarks

section

variable (fitting : Fitting (.element element attrs children))
include fitting

theorem makes_element {address : Address} (made : ChildrenMade children)
    (known : element.dynamic = true → address ∈ program.located.map fst) (clear : Clear program address 0) :
    Makes (clientElement address element attrs (clientChildren (element.childCount == 1) address {} children)) program
      fun _ after => ∃ html, Gained program after html (innerNeeds address children)
          (replicate (callsOn attrs children) address ++ targets (innerSites address children)) ∧
        ∀ inSvg, Built inSvg (.element element attrs children) →
          html = (skeleton (.element element attrs children)).chars allMarks := by
  have own : attrs.any dynamic = true → address ∈ program.located.map fst := fun changes =>
    known (by rw [fitting.2.1, changes, Bool.true_or])
  rw [callsOn, ← replicate_append_replicate, append_assoc]
  have inner : ∀ middle, middle.located.map fst = program.located.map fst →
      Makes (clientChildren (element.childCount == 1) address {} children) middle fun _ after => ∃ html,
        Gained middle after html (innerNeeds address children)
            (replicate (if isSole children then 1 else 0) address ++ targets (innerSites address children)) ∧
          ∀ inSvg, BuiltAll inSvg children →
            html = Tree.charsOfAll allMarks (if isSole children then [] else skeletons "" children) := by
    intro middle same
    cases sole : isSole children with
    | true =>
      -- the sole child has no marker, and its call is made on the element
      match children, sole, fitting, known with
      | [node], dynamic, fitting, known =>
        have here : element.dynamic = true := by
          rw [fitting.2.1, any_cons, show node.dynamic = true from dynamic, Bool.true_or, Bool.or_true]
        have one : (element.childCount == 1) = true := by rw [fitting.1]; rfl
        rw [one]
        refine (makes_sole dynamic (by rw [same]; exact known here)).mono fun _ after gained => ⟨[], ?_, fun _ _ => rfl⟩
        simpa [innerNeeds, innerSites, show isSole [node] = true from dynamic, targets] using gained
    | false =>
      have quiet : (element.childCount == 1) = true → ∀ node ∈ children, node.dynamic = false := by
        intro one
        rw [fitting.1, beq_iff_eq] at one
        obtain ⟨_, rfl⟩ := length_eq_one_iff.mp one
        simpa [isSole] using sole
      refine (made (element.childCount == 1) address 0 "" middle quiet (clear.of_addresses same)).mono ?_
      rintro _ _ ⟨html, gained, written⟩
      exact ⟨html, by simpa [innerNeeds, innerSites, sole] using gained, written⟩
  refine (makes_tags _ own inner).mono ?_
  rintro _ _ ⟨_, written, gained⟩
  exact ⟨_, gained, fun inSvg built => by rw [chars_skeleton built.1, written _ built.2]⟩

theorem callsOn_eq_zero (still : element.dynamic = false) : callsOn attrs children = 0 := by
  rw [fitting.2.1, Bool.or_eq_false_iff] at still
  have none : attrs.countP dynamic = 0 := by
    rw [countP_eq_zero]
    simpa using still.1
  have apart : isSole children = false := by
    match children with
    | [] => rfl
    | [node] => simpa [isSole] using still.2
    | _ :: _ :: _ => rfl
  simp [callsOn, none, apart]

theorem childMade_element (made : ChildrenMade children) : ChildMade (.element element attrs children) := by
  intro sole parent index run program quiet clear
  have placed : ∀ address, sites address (.element element attrs children) =
      (if element.dynamic then [(address, callsOn attrs children)] else []) ++ innerSites address children :=
    fun address => by rw [sites]; rfl
  have needed : ∀ address, needs address (.element element attrs children) =
      (if element.dynamic then [.element address] else []) ++ innerNeeds address children :=
    fun address => by rw [needs]; rfl
  rw [clientChild, placed, needed]
  cases dynamic : element.dynamic with
  | true =>
    have first : Makes (discard (ClientGen.reach "__el" ((index + (textTrees run).length) :: parent))) program fun _ after =>
        Gained program after [] [.element ((index + (textTrees run).length) :: parent)] [] :=
      Makes.discard ((makes_reach (.element _) clear.fresh).mono fun _ _ reached => reached.1)
    refine first.bind fun _ middle reached => ?_
    have known : (index + (textTrees run).length) :: parent ∈ middle.located.map fst := by
      rw [reached.addresses]
      simp [Need.address]
    refine (makes_element fitting made (fun _ => known) (clear.below.reached reached.addresses)).bind ?_
    rintro _ _ ⟨html, gained, written⟩
    refine makes_pure ⟨rfl, html, ?_, written⟩
    simpa [targets] using reached.trans gained
  | false =>
    refine (makes_element fitting made (by simp [dynamic]) clear.below).bind ?_
    rintro _ _ ⟨html, gained, written⟩
    refine makes_pure ⟨rfl, html, ?_, written⟩
    simpa [targets, callsOn_eq_zero fitting dynamic] using gained

end

theorem staticText?_of_dynamic (dynamic : node.dynamic = true) : staticText? node = none := by
  cases node with
  | expression given => rw [staticText?, if_pos (show given.dynamic = true from dynamic)]
  | text => cases dynamic
  | element => rfl
  | component => rfl

theorem childMade_region (dynamic : node.dynamic = true)
    (region : ∀ sole parent cursor program post, (∀ code, Makes (clientRegion sole parent cursor code) program post) →
      Makes (clientChild sole parent cursor node) program post) : ChildMade node := by
  intro sole parent index run program quiet clear
  cases sole with
  | true => exact absurd (quiet rfl) (by simp [dynamic])
  | false =>
    rw [staticText?_of_dynamic dynamic]
    have marked : skeleton node = .comment Live.regionStart ∧
        ∀ address, sites address node = [(address, 1)] ∧ needs address node = [.marker address] := by
      cases node with
      | text => cases dynamic
      | element => cases dynamic
      | expression => exact ⟨rfl, fun _ => ⟨rfl, if_pos dynamic⟩⟩
      | component => exact ⟨rfl, fun _ => ⟨rfl, rfl⟩⟩
    refine region _ _ _ _ _ fun code => (makes_marker clear code).mono ?_
    rintro _ _ ⟨rfl, gained⟩
    rw [marked.1, (marked.2 _).1, (marked.2 _).2]
    exact ⟨rfl, _, gained, fun _ _ => rfl⟩

theorem childMade_static {text : String} (static : staticText? node = some text)
    (child : ∀ sole parent cursor, clientChild sole parent cursor node = clientText cursor text) : ChildMade node := by
  intro sole parent index run program quiet clear
  rw [static, child]
  exact makes_text index run text

mutual

theorem childMade (node : Node) (fitting : Fitting node) : ChildMade node := by
  match node with
  | .text _ => exact childMade_static rfl fun _ _ _ => by rw [clientChild]
  | .expression given span =>
    cases changes : given.dynamic with
    | true =>
      refine childMade_region changes fun sole parent cursor program post made => ?_
      rw [clientChild, if_pos changes]
      exact made given.emit
    | false =>
      have static : staticText? (.expression given span) = some given.shown := by simp [staticText?, changes]
      refine childMade_static static fun sole parent cursor => ?_
      rw [clientChild, if_neg (by simp [changes])]
  | .component _ _ _ =>
    exact childMade_region rfl fun sole parent cursor program post made => makes_component made
  | .element _ _ children =>
    exact childMade_element fitting (childrenMade children fitting.2.2)

theorem childrenMade (nodes : List Node) (fitting : FittingAll nodes) : ChildrenMade nodes := by
  intro sole parent index run program quiet clear
  match nodes with
  | [] =>
    rw [clientChildren]
    refine makes_pure ⟨[], .refl program, fun _ _ => ?_⟩
    have alone := chars_textTrees run []
    rw [append_nil] at alone
    simpa [skeletons, Tree.charsOfAll] using alone.symm
  | node :: rest =>
    have here := childMade node fitting.1 sole parent index run program (fun only => quiet only node (by simp)) clear
    have later := childrenMade rest fitting.2 sole parent
    have others : sole = true → ∀ other ∈ rest, other.dynamic = false := fun only other mem =>
      quiet only other (mem_cons_of_mem node mem)
    rw [clientChildren, skeletons, sitesBelow, needsBelow]
    cases static : staticText? node with
    | some text =>
      rw [static] at here
      refine here.bind ?_
      rintro _ middle ⟨rfl, one⟩
      have wider : (textTrees run).length ≤ (textTrees (run ++ text)).length := by
        by_cases empty : run = ""
        · simp [textTrees, empty]
        · simp [textTrees, empty]
      have onward := later index (run ++ text) middle others
        ((clear.mono (Nat.add_le_add_left wider index)).of_addresses (by simpa using one.addresses))
      refine onward.mono ?_
      rintro _ _ ⟨html, two, written⟩
      refine ⟨escape allMarks text.toList ++ html, by simpa using one.trans two, fun inSvg built => ?_⟩
      rw [← written inSvg built.2, String.toList_append, ← append_assoc]
      simp [escape]
    | none =>
      rw [static] at here
      refine here.bind ?_
      rintro _ middle ⟨rfl, front, one, shown⟩
      have onward := later (index + (textTrees run).length + 1) "" middle others (clear.next one.addresses fun address mem => by
        obtain ⟨_, member, rfl⟩ := mem_map.mp mem
        exact needs_below _ node member)
      refine onward.mono ?_
      rintro _ _ ⟨html, two, written⟩
      refine ⟨front ++ html, ?_, fun inSvg built => ?_⟩
      · rw [targets_append]
        exact one.trans two
      · dsimp only
        rw [chars_textTrees, Tree.charsOfAll, ← written inSvg built.2, shown inSvg built.1]
        rfl

end

end Children

section Roots

def rootProgram (element : Blueprint.Element) (attributes : List Attribute) (children : List Node) : Gen ClientProgram := do
  let ((), program) ← (clientElement [] element attributes
    (clientChildren (element.childCount == 1) [] {} children)).run .start
  return program

theorem clientRoot_element (element : Blueprint.Element) (attrs : List Attribute) (children : List Node) :
    clientRoot (.element element attrs children) = (do
      (← rootProgram element attrs children).render (element.isSvg && element.tag != "svg")) := by
  rw [clientRoot]
  rfl

variable {element : Blueprint.Element} {attrs : List Attribute} {children : List Node}

theorem gained_rootProgram (fitting : Fitting (.element element attrs children)) (context : Context) :
    ∃ html, Gained .start (rootProgram element attrs children context).1 html (innerNeeds [] children)
        (replicate (callsOn attrs children) [] ++ targets (innerSites [] children)) ∧
      ∀ inSvg, Built inSvg (.element element attrs children) →
        html = (skeleton (.element element attrs children)).chars allMarks := by
  have clear : Clear .start [] 0 := by
    intro front i mem
    have same := congrArg length (mem_singleton.mp mem)
    simp at same
  exact makes_element fitting (childrenMade children fitting.2.2) (fun _ => by simp [ClientProgram.start]) clear context

theorem html_rootProgram {inSvg : Bool} (built : Built inSvg (.element element attrs children)) (context : Context) :
    (rootProgram element attrs children context).1.html.toList =
      (skeleton (.element element attrs children)).chars allMarks := by
  obtain ⟨_, gained, written⟩ := gained_rootProgram built.fitting context
  exact gained.html_eq.trans (written inSvg built)

mutual

theorem map_sites (address : Address) (node : Node) (apart : staticText? node = none) :
    (sites address node).map fst = (needs address node).map Need.address := by
  match node with
  | .text _ => cases apart
  | .expression given _ =>
    cases dynamic : given.dynamic with
    | false => simp [staticText?, dynamic] at apart
    | true => simp [sites, needs, dynamic, Need.address]
  | .component _ _ _ => rfl
  | .element element _ children =>
    have inner := map_sitesBelow address 0 "" children
    rw [sites, needs]
    cases element.dynamic <;> cases isSole children <;> simp [inner, Need.address]

theorem map_sitesBelow (parent : Address) (index : Nat) (run : String) (nodes : List Node) :
    (sitesBelow parent index run nodes).map fst = (needsBelow parent index run nodes).map Need.address := by
  match nodes with
  | [] => rfl
  | node :: rest =>
    rw [sitesBelow, needsBelow]
    cases static : staticText? node with
    | some => exact map_sitesBelow parent index _ rest
    | none =>
      rw [map_append, map_append, map_sites _ node static, map_sitesBelow parent _ "" rest]

end

theorem map_innerSites (address : Address) (children : List Node) :
    (innerSites address children).map fst = (innerNeeds address children).map Need.address := by
  unfold innerSites innerNeeds
  split
  · rfl
  · exact map_sitesBelow address 0 "" children

end Roots

end LiveMarkup.Codegen
