import LiveMarkup.Template.Tree

/-!
The names that templates hold. Wherever a template can be read, its elements and attributes are named as the grammar
has it: a letter or an underscore first, then letters, digits, hyphens, underscores, points and colons.
-/

namespace LiveMarkup.Template
open Text List Grammar Option

structure IsName (name : String) : Prop where
  starts : ∃ c cs, name.toList = c :: cs ∧ Parser.isNameStart c
  parts : ∀ c ∈ name.toList, Parser.isNamePart c

namespace Parser

variable {α β : Type}

section Logic

def Yields (parser : Parser α) (good : α → Prop) : Prop :=
  ∀ cursor attempts result, (parser cursor attempts).1 = some result → good result.1

variable {good : α → Prop} {fine : β → Prop}

theorem yields_pure {value : α} (holds : good value) : Yields (pure value) good := by
  intro cursor attempts result given
  obtain rfl := some.inj given
  exact holds

theorem yields_failure : Yields (failure : Parser α) good := by
  intro cursor attempts result given
  cases given

theorem yields_any (parser : Parser α) : Yields parser fun _ => True := fun _ _ _ _ => trivial

theorem bind_apply (parser : Parser α) (next : α → Parser β) (cursor : Cursor) (attempts : Attempts) :
    (parser >>= next) cursor attempts =
      match parser cursor attempts with
      | (some (value, cursor), attempts) => next value cursor attempts
      | (none, attempts) => (none, attempts) := by
  rcases found : (parser cursor attempts : Option (α × Cursor) × Attempts) with ⟨_ | ⟨value, cursor⟩, attempts⟩
  · simp only [bind, StateT.bind, OptionT.bind, OptionT.mk, found]
    rfl
  · simp only [bind, StateT.bind, OptionT.bind, OptionT.mk, found]

theorem orElse_apply (first second : Parser α) (cursor : Cursor) (attempts : Attempts) :
    (first <|> second) cursor attempts =
      match first cursor attempts with
      | (some result, attempts) => (some result, attempts)
      | (none, attempts) => second cursor attempts := by
  simp only [HOrElse.hOrElse, OrElse.orElse, Alternative.orElse, StateT.orElse]
  delta OptionT.orElse
  rcases found : (first cursor attempts : Option (α × Cursor) × Attempts) with ⟨_ | result, attempts⟩
  · simp only [OptionT.mk, bind, StateT.bind, found]
  · simp only [OptionT.mk, bind, StateT.bind, found]
    rfl

theorem Yields.bind {parser : Parser α} {next : α → Parser β} (first : Yields parser good)
    (then_ : ∀ value, good value → Yields (next value) fine) : Yields (parser >>= next) fine := by
  intro cursor attempts result given
  rw [bind_apply] at given
  split at given
  · rename_i value behind after found
    exact then_ value (first cursor attempts (value, behind) (by rw [found])) behind after result given
  · cases given

theorem Yields.orElse {first second : Parser α} (one : Yields first good) (two : Yields second good) :
    Yields (first <|> second) good := by
  intro cursor attempts result given
  rw [orElse_apply] at given
  split at given
  · rename_i other after found
    exact one cursor attempts result (by rw [found]; exact given)
  · exact two cursor _ result given

theorem construct_result (name : Construct) (body : Parser α) (cursor : Cursor) (attempts : Attempts) :
    (construct name body cursor attempts).1 = (body cursor attempts).1 := by
  unfold Parser.construct
  dsimp only
  split <;> rename_i found <;> rw [found]

theorem Yields.construct {body : Parser α} (yields : Yields body good) (name : Construct) :
    Yields (construct name body) good := by
  intro cursor attempts result given
  rw [construct_result] at given
  exact yields cursor attempts result given

theorem Yields.many {item : Parser α} (yields : Yields item good) (fuel : Nat) :
    Yields (many item fuel) fun items => ∀ item ∈ items, good item := by
  induction fuel with
  | zero => exact yields_pure (by simp)
  | succ _ ih =>
    refine Yields.orElse ?_ (yields_pure (by simp))
    refine yields.bind fun first holds => ih.bind fun others each => yields_pure ?_
    simpa using ⟨holds, each⟩

end Logic

theorem isNamePart_of_isNameStart {c : Char} (start : isNameStart c) : isNamePart c := by
  simp only [isNameStart, Bool.or_eq_true, beq_iff_eq] at start
  rcases start with letter | rfl
  · simp [isNamePart, Char.isAlphanum, letter]
  · decide

theorem yields_name : Yields name IsName := by
  intro cursor attempts result given
  obtain ⟨position, text⟩ := cursor
  cases text with
  | nil => cases given
  | cons c cs =>
    by_cases start : isNameStart c = true
    · have taken : (name ⟨position, c :: cs⟩ attempts).1 =
          ((whileChars isNamePart) ⟨position, c :: cs⟩ attempts).1 := by
        show ((if isNameStart c = true then whileChars isNamePart else failure) _ _).1 = _
        rw [if_pos start]
      rw [taken] at given
      obtain rfl := some.inj given
      have whole : (c :: cs).take ((c :: cs).takeWhile isNamePart).length = (c :: cs).takeWhile isNamePart :=
        (prefix_iff_eq_take.mp ( takeWhile_prefix _)).symm
      show IsName (String.ofList ((c :: cs).take ((c :: cs).takeWhile isNamePart).length))
      rw [whole]
      refine ⟨⟨c, cs.takeWhile isNamePart, ?_, start⟩, fun d mem => ?_⟩
      · rw [String.toList_ofList, takeWhile_cons_of_pos (isNamePart_of_isNameStart start)]
      · rw [String.toList_ofList] at mem
        exact all_eq_true.mp all_takeWhile d mem
    · have none : (name ⟨position, c :: cs⟩ attempts).1 = none := by
        show ((if isNameStart c = true then whileChars isNamePart else failure) _ _).1 = _
        rw [if_neg start]
        rfl
      rw [none] at given
      cases given

end Parser

section Grammar
open Template.Parser

def WrittenAttribute.Named : WrittenAttribute → Prop
  | .flag name _ => IsName name
  | .quoted name _ _ => IsName name
  | .braced name _ _ => IsName name
  | .spread _ _ => True

mutual

def Written.Named : Written → Prop
  | .text _ _ => True
  | .expression _ _ => True
  | .fragment children _ => NamedAll children
  | .selfClosed tag attributes _ => IsName tag ∧ ∀ entry ∈ attributes, entry.Named
  | .element tag attributes children _ _ _ => IsName tag ∧ (∀ entry ∈ attributes, entry.Named) ∧ NamedAll children

def Written.NamedAll : List Written → Prop
  | [] => True
  | written :: rest => written.Named ∧ NamedAll rest

end

theorem yields_attributeItem : Yields attributeItem WrittenAttribute.Named := by
  have spread : Yields spreadAttribute WrittenAttribute.Named := by
    refine Yields.construct ?_ _
    refine (yields_any _).bind fun _ _ => (yields_any _).bind fun _ _ => (yields_any _).bind fun _ _ =>
      (yields_any _).bind fun _ _ => (yields_any _).bind fun _ _ => (yields_any _).bind fun _ _ => yields_pure ?_
    trivial
  have value : Yields attributeValue fun make => ∀ name span, IsName name → (make name span).Named := by
    refine (yields_any _).bind fun _ _ => (yields_any _).bind fun _ _ => (yields_any _).bind fun _ _ => ?_
    exact Yields.orElse ((yields_any _).bind fun _ _ => yields_pure fun _ _ ok => ok)
      ((yields_any _).bind fun _ _ => yields_pure fun _ _ ok => ok)
  have flag : Yields (pure fun name span => .flag name span) fun make : String → Span → WrittenAttribute =>
      ∀ name span, IsName name → (make name span).Named := yields_pure fun _ _ ok => ok
  have named : Yields namedAttribute WrittenAttribute.Named := by
    refine Yields.construct ?_ _
    refine (yields_any _).bind fun _ _ => (yields_name.construct _).bind fun name ok => ?_
    refine (value.orElse flag).bind fun make holds => ?_
    exact (yields_any _).bind fun _ _ => yields_pure (holds _ _ ok)
  exact (yields_any _).bind fun _ _ => spread.orElse named

theorem yields_node {content : Parser (List Written)} (inner : Yields content Written.NamedAll) :
    Yields (node content) Written.Named := by
  have text : Yields text Written.Named := by
    refine Yields.construct ?_ _
    refine (yields_any _).bind fun _ _ => (yields_any _).bind fun raw _ => ?_
    split
    · exact yields_failure
    · exact (yields_any _).bind fun _ _ => yields_pure trivial
  have expression : Yields expression Written.Named := by
    refine Yields.construct ?_ _
    refine (yields_any _).bind fun _ _ => (yields_any _).bind fun _ _ => (yields_any _).bind fun _ _ => ?_
    exact (yields_any _).bind fun _ _ => yields_pure trivial
  have fragment : Yields (fragment content) Written.Named := by
    refine Yields.construct ?_ _
    refine (yields_any _).bind fun _ _ => (yields_any _).bind fun _ _ => inner.bind fun children holds => ?_
    exact (yields_any _).bind fun _ _ => (yields_any _).bind fun _ _ => yields_pure holds
  have element : Yields (element content) Written.Named := by
    refine Yields.construct ?_ _
    refine (yields_any _).bind fun _ _ => (yields_any _).bind fun _ _ => (yields_name.construct _).bind fun tag named => ?_
    refine (yields_any _).bind fun _ _ => (yields_attributeItem.many _).bind fun attrs each => ?_
    refine (yields_any _).bind fun _ _ => Yields.orElse ?_ ?_
    · exact (yields_any _).bind fun _ _ => (yields_any _).bind fun _ _ => yields_pure ⟨named, each⟩
    · refine (yields_any _).bind fun _ _ => inner.bind fun children holds => (yields_any _).bind fun _ _ => ?_
      exact (yields_any _).bind fun _ _ => yields_pure ⟨named, each, holds⟩
  exact fragment.orElse (element.orElse (expression.orElse text))

theorem yields_nodes (fuel : Nat) : Yields (nodes fuel) Written.NamedAll := by
  induction fuel with
  | zero => exact yields_pure trivial
  | succ _ ih =>
    refine Yields.orElse ?_ (yields_pure trivial)
    exact (yields_node ih).bind fun first holds => ih.bind fun others each => yields_pure ⟨holds, each⟩

theorem yields_content : Yields content Written.NamedAll := (yields_any _).bind fun _ _ => yields_nodes _

theorem yields_template : Yields template Written.NamedAll := by
  refine Yields.construct ?_ _
  exact yields_content.bind fun roots holds => (yields_any _).bind fun _ _ => yields_pure holds

theorem yields_viewBlock : Yields viewBlock Written.NamedAll := by
  refine Yields.construct ?_ _
  refine (yields_any _).bind fun _ _ => yields_content.bind fun roots holds => ?_
  exact (yields_any _).bind fun _ _ => yields_pure holds

end Grammar

section Trees

variable {roots : List Tree} {source : String} {α : Type} {parser : Parser α} {good : α → Prop}

def Attribute.Named : Attribute → Prop
  | .named name _ _ => IsName name
  | .spread _ _ => True

mutual

def Tree.Named : Tree → Prop
  | .element tag attributes children _ _ => IsName tag ∧ (∀ entry ∈ attributes, entry.Named) ∧ NamedAll children
  | .fragment children _ => NamedAll children
  | .text _ _ => True
  | .expression _ _ => True

def Tree.NamedAll : List Tree → Prop
  | [] => True
  | tree :: rest => tree.Named ∧ NamedAll rest

end

theorem Tree.namedAll_iff {trees : List Tree} : NamedAll trees ↔ ∀ tree ∈ trees, tree.Named := by
  induction trees with
  | nil => simp [NamedAll]
  | cons _ _ ih => simp [NamedAll, ih]

theorem named_toAttribute {entry : WrittenAttribute} (named : entry.Named) : entry.toAttribute.Named := by
  cases entry <;> exact named

theorem bind_eq_ok {ε β : Type} {x : Except ε α} {f : α → Except ε β} {b : β} (h : (x >>= f) = .ok b) :
    ∃ a, x = .ok a ∧ f a = .ok b := by
  cases x with
  | error => cases h
  | ok a => exact ⟨a, rfl, h⟩

mutual

theorem named_toTree? {written : Written} {tree : Option Tree} (named : written.Named) (read : written.toTree? = .ok tree) :
    ∀ root ∈ tree, root.Named := by
  match written with
  | .text _ _ =>
    rw [Written.toTree?] at read
    obtain rfl := Except.ok.inj read
    intro root found
    obtain ⟨_, _, rfl⟩ := map_eq_some_iff.mp found
    trivial
  | .expression _ _ =>
    rw [Written.toTree?] at read
    obtain rfl := Except.ok.inj read
    intro root found
    split at found
    · cases found
    · obtain rfl := some.inj found
      trivial
  | .fragment _ _ =>
    rw [Written.toTree?] at read
    obtain ⟨_, below, rest⟩ := bind_eq_ok read
    obtain rfl := Except.ok.inj rest
    intro root found
    obtain rfl := some.inj found
    exact namedAll_toTrees named below
  | .selfClosed _ _ _ =>
    rw [Written.toTree?] at read
    obtain rfl := Except.ok.inj read
    intro root found
    obtain rfl := some.inj found
    refine ⟨named.1, ?_, trivial⟩
    simpa using fun entry mem => named_toAttribute (named.2 entry mem)
  | .element _ _ _ _ _ _ =>
    rw [Written.toTree?] at read
    obtain ⟨_, below, rest⟩ := bind_eq_ok read
    split at rest
    · obtain rfl := Except.ok.inj rest
      intro root found
      obtain rfl := some.inj found
      refine ⟨named.1, ?_, namedAll_toTrees named.2.2 below⟩
      simpa using fun entry mem => named_toAttribute (named.2.1 entry mem)
    · cases rest

theorem namedAll_toTrees {written : List Written} {trees : List Tree} (named : Written.NamedAll written)
    (read : toTrees written = .ok trees) : Tree.NamedAll trees := by
  match written with
  | [] =>
    rw [toTrees] at read
    obtain rfl := Except.ok.inj read
    trivial
  | first :: rest =>
    rw [toTrees] at read
    obtain ⟨_, one, read⟩ := bind_eq_ok read
    obtain ⟨_, two, read⟩ := bind_eq_ok read
    obtain rfl := Except.ok.inj read
    have here := named_toTree? named.1 one
    have later := namedAll_toTrees named.2 two
    rw [Tree.namedAll_iff] at later ⊢
    intro root mem
    rcases mem_append.mp mem with first | other
    · exact here root (by simpa using first)
    · exact later root other

end

theorem named_mapText {tree : Tree} (named : tree.Named) (f : String → String) : (tree.mapText f).Named := by
  cases tree <;> exact named

theorem forall_mapLast {f : α → α} (keeps : ∀ a, good a → good (f a)) {items : List α} (all : ∀ a ∈ items, good a) :
    ∀ a ∈ mapLast f items, good a := by
  fun_induction mapLast f items with
  | case1 => exact all
  | case2 a => simpa using keeps a (all a (by simp))
  | case3 a _ _ ih =>
    intro b mem
    rcases mem_cons.mp mem with rfl | later
    · exact all b (by simp)
    · exact ih (fun c member => all c (mem_cons_of_mem a member)) b later

theorem namedAll_trimRoots (named : Tree.NamedAll roots) : Tree.NamedAll (trimRoots roots) := by
  rw [Tree.namedAll_iff] at named ⊢
  have kept : ∀ tree ∈ roots.filter (!·.isBlankText), tree.Named := fun tree mem =>
    named tree (mem_filter.mp mem).1
  unfold trimRoots
  split
  · simp
  · rename_i first rest found
    rw [found] at kept
    have keeps : ∀ tree : Tree, tree.Named → (tree.mapText trimmedEnd).Named := fun _ named => named_mapText named _
    refine forall_mapLast keeps fun tree mem => ?_
    rcases mem_cons.mp mem with rfl | later
    · exact named_mapText (kept first (by simp)) _
    · exact kept tree (mem_cons_of_mem first later)

/-- The roots of a template that was read, on its own or in a block. -/
def IsTemplate (roots : List Tree) : Prop :=
  ∃ source, parse source = .ok roots ∨ ∃ bytes, parseBlock source = .ok (roots, bytes)

theorem Parser.parse_eq_ok_iff {result : α × Cursor} :
    parser.parse source = .ok result ↔ (parser (.ofText source) {}).1 = some result := by
  rw [Parser.parse]
  split <;> rename_i found <;> simp [found]

theorem Parser.Yields.parse (yields : parser.Yields good) {result : α} {cursor : Cursor}
    (read : parser.parse source = .ok (result, cursor)) : good result := yields _ _ _ (Parser.parse_eq_ok_iff.mp read)

theorem IsTemplate.named (template : IsTemplate roots) : Tree.NamedAll roots := by
  obtain ⟨_, whole | ⟨_, block⟩⟩ := template
  · unfold parse at whole
    split at whole
    · cases whole
    · rename_i read
      obtain ⟨_, converted, rest⟩ := bind_eq_ok (Eq.trans (map_eq_pure_bind trimRoots _).symm whole)
      obtain rfl := Except.ok.inj rest
      exact namedAll_trimRoots (namedAll_toTrees (yields_template.parse read) converted)
  · unfold parseBlock at block
    split at block
    · split at block <;> cases block
    · rename_i read
      obtain ⟨_, converted, rest⟩ := bind_eq_ok block
      obtain ⟨rfl, _⟩ := Prod.mk.inj (Except.ok.inj rest)
      exact namedAll_trimRoots (namedAll_toTrees (yields_viewBlock.parse read) converted)

end Trees

end LiveMarkup.Template
