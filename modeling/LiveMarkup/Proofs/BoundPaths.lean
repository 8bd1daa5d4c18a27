import LiveMarkup.Blueprint.Value
import LiveMarkup.Proofs.Leaves

/-!
The paths that stand for embedded code when it is passed on. They consist of words of the code and colons, so that nothing of
what the code computes is in them.
-/

namespace LiveMarkup
open List Option String Prod
variable {c : Char}

namespace Expression
open Text

def isWordPart (c : Char) : Bool := isIdentifierStart c || isIdentifierPart c || c == '#'

def Wordlike (name : String) : Prop := ∀ c ∈ name.toList, isWordPart c = true

section Words

open Lexer

variable {cs : List Char} {name : String} {rest : List Char} {tokens : List Token} {lexemes : List Lexeme}

theorem isWordPart_suffix (mem : c ∈ Number.suffix cs) : isWordPart c = true := by
  unfold Number.suffix at mem
  split at mem
  · rename_i d others
    split at mem
    · rename_i start
      rcases mem_cons.mp mem with rfl | later
      · simp [isWordPart, start]
      · simp [isWordPart, mem_takeWhile_imp later]
    · cases mem
  · cases mem

theorem wordlike_word? {letters : List Char} (found : word? cs = some (letters, rest)) : Wordlike (ofList letters) := by
  intro c mem
  rw [toList_ofList] at mem
  unfold word? at found
  split at found
  · cases found
  · obtain ⟨rfl, -⟩ := mk.inj (some.inj found)
    exact isWordPart_suffix mem

theorem wordlike_ident? (found : ident? cs = some (name, rest)) : Wordlike name := by
  obtain ⟨mark, known, _, _, -, word, rfl⟩ := anyIdent?_spelled (ite_none_left_eq_some.mp found).2
  intro c mem
  rw [toList_append] at mem
  rcases mem_append.mp mem with within | letter
  · have all : ["", "r#"].all (·.toList.all isWordPart) = true := by decide +kernel
    exact all_eq_true.mp (all_eq_true.mp all mark known) c within
  · exact wordlike_word? word c letter

def Worded (tokens : List Token) : Prop := ∀ name, .ident name ∈ tokens → Wordlike name

theorem wordlike_leaf? (found : leaf? cs = some (.ident name, rest)) : Wordlike name := by
  unfold leaf? at found
  rcases or_eq_some_iff.mp found with front | ⟨-, word⟩
  · rcases or_eq_some_iff.mp front with literal | ⟨-, punct⟩
    · obtain ⟨_, -, made⟩ := map_eq_some_iff.mp literal
      cases (mk.inj made).1
    · unfold punct? at punct
      split at punct
      · cases punct
      · split at punct
        · cases punct
        · split at punct
          · obtain ⟨_, -, made⟩ := bind_eq_some_iff.mp punct
            cases (mk.inj (some.inj (ite_none_left_eq_some.mp made).2)).1
          · cases (mk.inj (some.inj punct)).1
  · obtain ⟨⟨_, _⟩, here, made⟩ := map_eq_some_iff.mp word
    obtain rfl := Token.ident.inj (mk.inj made).1
    exact wordlike_ident? here

theorem wordlike_lexemes? {fuel : Nat} (cut : lexemes? fuel cs = some lexemes) :
    ∀ name, .token (.ident name) ∈ lexemes → Wordlike name := by
  fun_induction lexemes? fuel cs generalizing lexemes with
  | case1 => cases cut
  | case2 =>
    obtain rfl := some.inj cut
    exact nofun
  | case3 _ _ _ _ ih => exact ih cut
  | case4 =>
    rename_i ih
    exact ih cut
  | case5 =>
    rename_i inner behind doc ih
    obtain ⟨_, found, rfl⟩ := map_eq_some_iff.mp cut
    intro name mem
    rcases mem_append.mp mem with mark | member
    · cases inner <;> simp [docTokens] at mark
    · exact ih found name member
  | case6 | case7 =>
    rename_i ih
    obtain ⟨_, found, rfl⟩ := map_eq_some_iff.mp cut
    intro name mem
    exact ih found name (by simpa using mem)
  | case8 =>
    rename_i ih
    obtain ⟨⟨_, _⟩, leaf, made⟩ := bind_eq_some_iff.mp cut
    obtain ⟨_, found, rfl⟩ := map_eq_some_iff.mp made
    intro name mem
    rcases mem_cons.mp mem with same | member
    · obtain rfl := Lexeme.token.inj same
      exact wordlike_leaf? leaf
    · exact ih _ found name member

theorem ident_nest? {before : List Token} {outer : List (Delimiter × List Token)}
    (nested : nest? before outer lexemes = some tokens) (mem : .ident name ∈ tokens) :
    .ident name ∈ before ∨ (∃ group ∈ outer, .ident name ∈ group.2) ∨ .token (.ident name) ∈ lexemes := by
  fun_induction nest? before outer lexemes with
  | case1 =>
    obtain rfl := some.inj nested
    exact .inl (mem_reverse.mp mem)
  | case2 => cases nested
  | case3 _ _ _ _ ih =>
    rcases ih nested with here | there | later
    · rcases mem_cons.mp here with rfl | here
      · exact .inr (.inr mem_cons_self)
      · exact .inl here
    · exact .inr (.inl there)
    · exact .inr (.inr (mem_cons_of_mem _ later))
  | case4 _ _ _ _ ih =>
    rcases ih nested with here | ⟨group, member, there⟩ | later
    · cases here
    · rcases mem_cons.mp member with rfl | member
      · exact .inl there
      · exact .inr (.inl ⟨group, member, there⟩)
    · exact .inr (.inr (mem_cons_of_mem _ later))
  | case5 _ _ _ _ _ ih =>
    rcases ih nested with here | ⟨group, member, there⟩ | later
    · rcases mem_cons.mp here with same | here
      · cases same
      · exact .inr (.inl ⟨_, mem_cons_self, here⟩)
    · exact .inr (.inl ⟨group, mem_cons_of_mem _ member, there⟩)
    · exact .inr (.inr (mem_cons_of_mem _ later))
  | case6 => cases nested
  | case7 => cases nested

theorem worded_tokens? {code : String} (cut : tokens? code = some tokens) : Worded tokens := by
  obtain ⟨_, found, nested⟩ := bind_eq_some_iff.mp cut
  intro name mem
  rcases ident_nest? nested mem with here | ⟨group, member, -⟩ | there
  · cases here
  · cases member
  · exact wordlike_lexemes? found name there

theorem Worded.suffix {rest : List Token} (worded : Worded tokens) (behind : rest <:+ tokens) : Worded rest :=
  fun name mem => worded name (behind.subset mem)

end Words

section Logic

open TokenParser

variable {α β : Type} {tokens : List Token} {next : List Token → TokenParser β}

def Gives (parser : TokenParser α) (tokens : List Token) (good : α → List Token → Prop) : Prop :=
  ∀ value rest, parser tokens = some (value, rest) → good value rest

variable {parser : TokenParser α} {good better : α → List Token → Prop} {fine : β → List Token → Prop}

theorem gives_pure {value : α} (holds : good value tokens) : Gives (pure value) tokens good := by
  intro other rest given
  obtain ⟨rfl, rfl⟩ := mk.inj (some.inj given)
  exact holds

theorem gives_failure : Gives (failure : TokenParser α) tokens good := nofun

theorem Gives.bind {next : α → TokenParser β} (gives : Gives parser tokens good)
    (behind : ∀ value rest, good value rest → Gives (next value) rest fine) : Gives (parser >>= next) tokens fine := by
  intro result rest given
  obtain ⟨⟨value, middle⟩, found, later⟩ := bind_eq_some_iff.mp given
  exact behind value middle (gives value middle found) result rest later

theorem gives_behind {next : α → TokenParser β} (behind : ∀ value rest, Gives (next value) rest fine) :
    Gives (parser >>= next) tokens fine :=
  @Gives.bind α β tokens parser (fun _ _ => True) fine next (fun _ _ _ => trivial) fun value rest _ => behind value rest

theorem gives_ite {chosen : Prop} [Decidable chosen] {other : TokenParser α} (first : Gives parser tokens good)
    (second : Gives other tokens good) : Gives (if chosen then parser else other) tokens good := by
  split
  · exact first
  · exact second

theorem gives_get (gives : Gives (next tokens) tokens fine) : Gives (get >>= next) tokens fine := gives

def Advances (parser : TokenParser α) : Prop := ∀ tokens, Gives parser tokens fun _ rest => rest <:+ tokens

theorem advances_pure (value : α) : Advances (pure value) := fun _ => gives_pure suffix_rfl

theorem advances_failure : Advances (failure : TokenParser α) := fun _ => gives_failure

theorem Advances.bind {next : α → TokenParser β} (advances : Advances parser) (behind : ∀ value, Advances (next value)) :
    Advances (parser >>= next) := fun tokens =>
  (advances tokens).bind fun value middle short result rest given => (behind value middle result rest given).trans short

theorem advances_modify (n : Nat) : Advances (modify (·.drop n)) := by
  intro tokens value rest given
  obtain ⟨-, rfl⟩ := mk.inj (some.inj given)
  exact drop_suffix n tokens

theorem advances_get (behind : ∀ tokens, Advances (next tokens)) :
    Advances (get >>= next) := fun tokens => gives_get (behind tokens tokens)

theorem advances_punct (text : String) : Advances (punct text) := advances_get fun tokens => by
  split
  · exact advances_modify _
  · exact advances_failure

theorem advances_punct? (text : String) : Advances (punct? text) := advances_get fun tokens => by
  split
  · exact (advances_modify _).bind fun _ => advances_pure true
  · exact advances_pure false

theorem advances_inside (delimiter : Delimiter) (content : TokenParser α) : Advances (inside delimiter content) := by
  intro tokens
  refine gives_get ?_
  split
  · rename_i d content rest
    split
    · split
      · intro value behind given
        obtain ⟨-, rfl⟩ := mk.inj (some.inj given)
        exact suffix_cons _ rest
      · exact gives_failure
    · exact gives_failure
  · exact gives_failure

theorem advances_whileSees {more : List Token → Bool} {item : TokenParser Expr} (advances : Advances item) (fuel : Nat) :
    Advances (whileSees more item fuel) := by
  induction fuel with
  | zero => exact advances_pure []
  | succ _ ih =>
    refine advances_get fun tokens => ?_
    split
    · exact advances.bind fun first => ih.bind fun others => advances_pure (first :: others)
    · exact advances_pure []

theorem advances_outerAttributes (parsers : Parsers) : Advances (Grammar.outerAttributes parsers) :=
  advances_get fun tokens =>
    advances_whileSees ((advances_punct "#").bind fun _ => advances_inside .bracket (Grammar.attributeContent parsers)) tokens.length

end Logic

section Paths

open TokenParser Grammar

variable {tokens : List Token} {parsers : Parsers}

def Path.Wordlike (path : Path) : Prop := path.isPlain = true → ∀ segment ∈ path.segments, Expression.Wordlike segment.name

theorem gives_anyWord (worded : Worded tokens) : Gives anyWord tokens fun name rest => Wordlike name ∧ Worded rest := by
  refine gives_get ?_
  split
  · rename_i name rest
    intro value behind given
    obtain ⟨rfl, rfl⟩ := mk.inj (some.inj given)
    exact ⟨worded name mem_cons_self, worded.suffix (suffix_cons _ rest)⟩
  · exact gives_failure

theorem gives_ident (worded : Worded tokens) : Gives ident tokens fun name rest => Wordlike name ∧ Worded rest := by
  refine gives_get ?_
  split
  · exact gives_anyWord worded
  · exact gives_failure

theorem gives_segment (worded : Worded tokens) (fuel : Nat) : Gives (segment parsers true fuel) tokens fun found rest =>
    found.1.generic = false → Wordlike found.1.name ∧ Worded rest := by
  cases fuel with
  | zero => exact gives_failure
  | succ =>
    rw [Grammar.segment]
    refine gives_get ?_
    split
    · exact (gives_anyWord worded).bind fun name rest holds => gives_pure fun _ => holds
    · dsimp only
      -- the arguments are read behind the name, and make the segment generic
      split
      all_goals
        refine Gives.bind (by first | exact gives_anyWord worded | exact gives_ident worded) fun name rest holds => gives_get ?_
        split
        · exact gives_behind fun _ _ => gives_pure nofun
        · exact gives_pure fun _ => holds

theorem gives_pathRest {path : Path} {parts : List Expr} (fuel : Nat)
    (holds : path.isPlain = true → (∀ segment ∈ path.segments, Expression.Wordlike segment.name) ∧ Worded tokens) :
    Gives (pathRest parsers true path parts fuel) tokens fun found _ => found.1.Wordlike := by
  induction fuel generalizing tokens path parts with
  | zero => exact gives_failure
  | succ fuel ih =>
    rw [pathRest]
    refine gives_get ?_
    split
    · refine (advances_punct "::" tokens).bind fun _ middle behind => ?_
      have longer (next : Segment) : ({ path with segments := path.segments ++ [next] } : Path).isPlain =
          (path.isPlain && !next.generic) := by simp [Path.isPlain]
      by_cases plain : path.isPlain = true
      · obtain ⟨words, worded⟩ := holds plain
        refine (gives_segment (worded.suffix behind) fuel).bind fun found rest next => ih fun whole => ?_
        rw [longer, plain, Bool.true_and, Bool.not_eq_true'] at whole
        obtain ⟨_, worded⟩ := next whole
        refine ⟨fun segment mem => ?_, worded⟩
        rcases mem_append.mp mem with here | there
        · exact words segment here
        · rwa [mem_singleton.mp there]
      · refine gives_behind fun found rest => ih fun whole => ?_
        rw [longer, Bool.and_eq_true] at whole
        exact absurd whole.1 plain
    · exact gives_pure fun plain => (holds plain).1

theorem gives_path (worded : Worded tokens) (fuel : Nat) :
    Gives (path parsers true fuel) tokens fun found _ => found.1.Wordlike := by
  cases fuel with
  | zero => exact gives_failure
  | succ fuel =>
    rw [path]
    refine (advances_punct? "::" tokens).bind fun rooted middle behind => ?_
    refine (gives_segment (worded.suffix behind) fuel).bind fun found rest first => gives_pathRest fuel fun plain => ?_
    have single : found.1.generic = false := by simpa [Path.isPlain] using plain
    exact ⟨fun segment mem => mem_singleton.mp mem ▸ (first single).1, (first single).2⟩

theorem gives_qualifiedPath (worded : Worded tokens) :
    Gives (qualifiedPath parsers true) tokens fun found _ => found.1 = false → found.2.1.Wordlike := by
  refine gives_get ?_
  split
  · refine gives_behind fun _ _ => gives_behind fun self _ => gives_behind fun _ _ => ?_
    split
    all_goals repeat' first | exact gives_pure nofun | refine gives_behind fun _ _ => ?_
  · refine gives_get ((gives_path worded _).bind fun found rest named => gives_pure fun _ => named)

end Paths

def Expr.path? (e : Expr) : Option Path :=
  match e.bare with
  | .path named _ => some named
  | .call (.path named _) _ => some named
  | _ => none

theorem Expr.path?_withAttributes (attributes : List Expr) (e : Expr) : (withAttributes attributes e).path? = e.path? := by
  unfold withAttributes
  split <;> rfl

def Expr.Named (e : Expr) : Prop := ∀ path, e.path? = some path → path.Wordlike

section Operands

open TokenParser Grammar

variable {tokens : List Token} {parsers : Parsers} {e : Expr}

def Pathless (parser : TokenParser Expr) : Prop := ∀ tokens, Gives parser tokens fun e _ => e.path? = none

theorem named_of_none (none : e.path? = none) : e.Named := fun path found => by rw [none] at found; cases found

theorem pathless_pure (none : e.path? = none) : Pathless (pure e) := fun _ => gives_pure none

theorem pathless_failure : Pathless failure := fun _ => gives_failure

theorem pathless_behind {α : Type} {parser : TokenParser α} {next : α → TokenParser Expr} (pathless : ∀ value, Pathless (next value)) :
    Pathless (parser >>= next) := fun _ => gives_behind fun value rest => pathless value rest

theorem pathless_inside {delimiter : Delimiter} {content : TokenParser Expr} (pathless : Pathless content) :
    Pathless (inside delimiter content) := by
  intro tokens
  refine gives_get ?_
  split
  · split
    · split
      · rename_i e found
        intro value rest given
        obtain ⟨rfl, -⟩ := mk.inj (some.inj given)
        exact pathless _ _ _ found
      · exact gives_failure
    · exact gives_failure
  · exact gives_failure

theorem pathless_literal : Pathless literal := by
  unfold literal
  refine pathless_behind fun tokens => ?_
  split
  all_goals repeat' first | exact pathless_pure rfl | exact pathless_failure | refine pathless_behind fun _ => ?_

theorem pathless_closure (structs : Bool) : Pathless (closure parsers structs) := by
  unfold Grammar.closure
  repeat' first | exact pathless_pure rfl | refine pathless_behind fun _ => ?_ | split

theorem pathless_parenOrTuple : Pathless (parenOrTuple parsers) := by
  refine pathless_inside ?_
  repeat' first | exact pathless_pure rfl | refine pathless_behind fun _ => ?_ | split

theorem pathless_arrayOrRepeat : Pathless (arrayOrRepeat parsers) := by
  refine pathless_inside ?_
  repeat' first | exact pathless_pure rfl | refine pathless_behind fun _ => ?_ | split

theorem pathless_branching : Pathless (branching parsers) :=
  pathless_behind fun _ => pathless_behind fun _ => pathless_pure rfl

theorem pathless_whileLoop : Pathless (whileLoop parsers) :=
  pathless_behind fun _ => pathless_behind fun _ => pathless_behind fun _ => pathless_pure rfl

theorem pathless_forLoop : Pathless (forLoop parsers) :=
  pathless_behind fun _ => pathless_behind fun _ => pathless_behind fun _ => pathless_behind fun _ => pathless_behind fun _ =>
    pathless_pure rfl

theorem pathless_endlessLoop : Pathless (endlessLoop parsers) :=
  pathless_behind fun _ => pathless_behind fun _ => pathless_pure rfl

theorem pathless_matching : Pathless (matching parsers) :=
  pathless_behind fun _ => pathless_behind fun _ => pathless_behind fun _ => pathless_pure rfl

theorem pathless_labeled : Pathless (labeled parsers) := by
  refine pathless_behind fun _ => pathless_behind fun _ => pathless_behind fun tokens => ?_
  split
  · exact pathless_whileLoop
  · split
    · exact pathless_forLoop
    · split
      · exact pathless_endlessLoop
      · split
        · exact pathless_behind fun _ => pathless_pure rfl
        · exact pathless_failure

theorem pathless_jump (keyword : String) : Pathless (jump parsers keyword) := by
  unfold jump
  repeat' first | exact pathless_pure rfl | refine pathless_behind fun _ => ?_ | split

theorem pathless_breaking (structs : Bool) : Pathless (breaking parsers structs) := by
  unfold breaking
  repeat' first | exact pathless_pure rfl | exact pathless_failure | refine pathless_behind fun _ => ?_ | split

theorem pathless_letExpression (structs : Bool) : Pathless (letExpression parsers structs) := by
  unfold letExpression
  repeat' first | exact pathless_pure rfl | refine pathless_behind fun _ => ?_

theorem gives_pathExpression (worded : Worded tokens) (structs : Bool) :
    Gives (pathExpression parsers structs) tokens fun e _ => e.Named := by
  refine (gives_qualifiedPath worded).bind fun ⟨qualified, path, parts⟩ rest named => gives_get ?_
  split
  · exact gives_behind fun _ _ => gives_behind fun _ _ => gives_pure (named_of_none rfl)
  · split
    · exact gives_behind fun _ _ => gives_pure (named_of_none rfl)
    · split
      · exact gives_pure (named_of_none rfl)
      · rename_i plain
        refine gives_pure fun other same => ?_
        obtain rfl := some.inj same
        exact named (by simpa using plain)

theorem gives_atom (worded : Worded tokens) (structs : Bool) : Gives (atom parsers structs) tokens fun e _ => e.Named := by
  have other {parser : TokenParser Expr} (pathless : Pathless parser) : Gives parser tokens fun e _ => e.Named :=
    fun e rest given => named_of_none (pathless tokens e rest given)
  have block {read : Expr → Expr} (none : ∀ inner, (read inner).path? = none) {attrs : Bool} :
      Pathless (do return read (← parsers (.block attrs))) := pathless_behind fun inner => pathless_pure (none inner)
  refine gives_get ?_
  refine gives_ite (other pathless_literal) ?_
  refine gives_ite (other (pathless_behind fun _ => pathless_behind fun _ => block fun _ => rfl)) ?_
  refine gives_ite (other (pathless_behind fun _ => block fun _ => rfl)) ?_
  refine gives_ite (other (pathless_closure structs)) ?_
  refine gives_ite (other (pathless_behind fun _ => pathless_behind fun _ => pathless_behind fun _ => pathless_behind fun _ =>
    pathless_pure rfl)) ?_
  refine gives_ite (gives_pathExpression worded structs) ?_
  refine gives_ite (other pathless_parenOrTuple) ?_
  refine gives_ite (other (pathless_breaking structs)) ?_
  refine gives_ite (other (pathless_behind fun _ => pathless_behind fun _ => pathless_pure rfl)) ?_
  refine gives_ite (other (pathless_jump "return")) ?_
  refine gives_ite (other (pathless_behind fun _ => pathless_behind fun _ => pathless_pure rfl)) ?_
  refine gives_ite (other pathless_arrayOrRepeat) ?_
  refine gives_ite (other (pathless_letExpression structs)) ?_
  refine gives_ite (other pathless_branching) ?_
  refine gives_ite (other pathless_whileLoop) ?_
  refine gives_ite (other pathless_forLoop) ?_
  refine gives_ite (other pathless_endlessLoop) ?_
  refine gives_ite (other pathless_matching) ?_
  refine gives_ite (other (pathless_jump "yield")) ?_
  refine gives_ite (other (pathless_behind fun _ => block fun _ => rfl)) ?_
  refine gives_ite (other (pathless_behind fun _ => block fun _ => rfl)) ?_
  refine gives_ite (other (block fun _ => rfl)) ?_
  refine gives_ite (other (pathless_behind fun _ => pathless_pure rfl)) ?_
  refine gives_ite (other (pathless_behind fun _ => pathless_pure rfl)) ?_
  exact gives_ite (other pathless_labeled) gives_failure

end Operands

section Expressions

open TokenParser Grammar

variable {tokens : List Token} {parsers : Parsers} {e : Expr}

/-- The recursive parts give paths that are made of words of the tokens, or that stood in front of them. -/
structure Naming (parsers : Parsers) : Prop where
  expression : ∀ structs tokens, Worded tokens → Gives (parsers (.expression structs)) tokens fun e _ => e.Named
  unary : ∀ structs tokens, Worded tokens → Gives (parsers (.unary structs)) tokens fun e _ => e.Named
  climb : ∀ left structs base tokens, left.Named → Gives (parsers (.climb left structs base)) tokens fun e _ => e.Named
  trailers : ∀ e tokens, e.Named → Gives (parsers (.trailers e)) tokens fun e _ => e.Named

section

variable (naming : Naming parsers)
include naming

theorem Naming.grown (none : e.path? = none) {structs : Bool} {base : Precedence} :
    Gives (parsers (.climb e structs base)) tokens fun e _ => e.Named
      := naming.climb e structs base tokens (named_of_none none)

theorem Naming.trailed (none : e.path? = none) :
    Gives (parsers (.trailers e)) tokens fun e _ => e.Named := naming.trailers e tokens (named_of_none none)

theorem gives_expression (worded : Worded tokens) (structs : Bool) :
    Gives (expression parsers structs) tokens fun e _ => e.Named :=
  (naming.unary structs tokens worded).bind fun first rest named => naming.climb first structs Precedence.lowest rest named

theorem gives_unary (worded : Worded tokens) (structs : Bool) :
    Gives (unary parsers structs) tokens fun e _ => e.Named := by
  refine (advances_outerAttributes parsers tokens).bind fun attrs middle behind => gives_get ?_
  have plain {e : Expr} (named : e.Named) : (Expr.withAttributes attrs e).Named := fun path found =>
    named path (e.path?_withAttributes attrs ▸ found)
  refine gives_ite ?_ (gives_ite ?_ (gives_ite ?_ ?_))
  · refine gives_behind fun _ _ => gives_behind fun _ _ => gives_ite ?_ ?_
    all_goals repeat' first | exact gives_pure (named_of_none rfl) | refine gives_behind fun _ _ => ?_ | refine gives_ite ?_ ?_
  · exact gives_behind fun _ _ => gives_behind fun _ _ => gives_pure (plain (named_of_none rfl))
  · exact gives_behind fun _ _ => gives_behind fun _ _ => gives_pure (named_of_none rfl)
  · refine (gives_atom (worded.suffix behind) structs).bind fun e rest named => ?_
    refine (naming.trailers e rest named).bind fun e rest named => gives_ite ?_ ?_
    · exact gives_behind fun _ _ => gives_pure (plain named)
    · exact gives_pure (plain named)

theorem gives_climb {left : Expr} (named : left.Named) (structs : Bool) (base : Precedence) :
    Gives (climb parsers left structs base) tokens fun e _ => e.Named := by
  refine gives_get (gives_ite (gives_pure named) ?_)
  split
  · refine gives_ite (gives_pure named) (gives_ite ?_ ?_)
    · exact gives_behind fun _ _ => gives_behind fun _ _ => gives_behind fun _ _ => naming.grown rfl
    · exact gives_behind fun _ _ => gives_behind fun _ _ => naming.grown rfl
  · refine gives_ite ?_ (gives_ite ?_ (gives_ite ?_ (gives_pure named)))
    · exact gives_behind fun _ _ => gives_behind fun _ _ => naming.grown rfl
    · exact gives_behind fun _ _ => naming.grown rfl
    · refine gives_behind fun _ _ => gives_behind fun _ _ => gives_behind fun _ _ => gives_ite ?_ ?_
      · exact gives_behind fun _ _ => naming.grown rfl
      · exact naming.grown rfl

theorem gives_member : Gives (trailers.member parsers e) tokens fun e _ => e.Named := by
  refine gives_behind fun _ _ => gives_ite (naming.trailed rfl) (gives_behind fun _ _ => ?_)
  split
  · refine gives_ite (gives_behind fun _ _ => naming.trailed rfl) gives_failure
  · refine gives_behind fun _ _ => gives_behind fun _ _ => ?_
    refine gives_ite ?_ ?_
    all_goals
      refine gives_behind fun _ _ => gives_behind fun _ _ => gives_ite ?_ (naming.trailed rfl)
      exact gives_behind fun _ _ => naming.trailed rfl

theorem gives_trailers (named : e.Named) : Gives (trailers parsers e) tokens fun e _ => e.Named := by
  refine gives_get (gives_ite ?_ (gives_ite ?_ (gives_ite ?_ (gives_ite ?_ (gives_pure named)))))
  · refine gives_behind fun arguments rest => naming.trailers _ rest fun path same => named path ?_
    cases e with
    | path => exact same
    | _ => cases same
  · refine gives_behind fun _ _ => gives_behind fun _ _ => ?_
    split
    · split
      · exact gives_failure
      · refine gives_behind fun _ _ => gives_ite (gives_member naming) (naming.trailed rfl)
    · exact gives_member naming
  · exact gives_behind fun _ _ => naming.trailed rfl
  · exact gives_behind fun _ _ => naming.trailed rfl

end

theorem naming_parsers (fuel : Nat) : Naming (Expression.parsers fuel) := by
  induction fuel with
  | zero =>
    exact ⟨fun _ _ _ => gives_failure, fun _ _ _ => gives_failure, fun _ _ _ _ _ => gives_failure, fun _ _ _ => gives_failure⟩
  | succ _ ih =>
    exact ⟨fun structs _ worded => gives_expression ih worded structs, fun structs _ worded => gives_unary ih worded structs,
      fun _ structs base _ named => gives_climb ih named structs base, fun _ _ named => gives_trailers ih named⟩

theorem named_parse? {code : String} (read : parse? code = some e) : e.Named := by
  obtain ⟨tokens, cut, parsed⟩ := bind_eq_some_iff.mp read
  split at parsed
  · rename_i given
    obtain rfl := some.inj parsed
    exact (naming_parsers _).expression true tokens (worded_tokens? cut) _ _ given
  · cases parsed

end Expressions
end Expression

namespace Blueprint
open Expression

variable {code path : String} {given : Value}

def isPathPart (c : Char) : Bool := isWordPart c || c == ':'

theorem mem_intercalate {separator : String} {names : List String} (mem : c ∈ (separator.intercalate names).toList) :
    c ∈ separator.toList ∨ ∃ name ∈ names, c ∈ name.toList := by
  induction names with
  | nil => simp at mem
  | cons name names ih =>
    cases names with
    | nil => exact .inr ⟨name, mem_cons_self, by simpa using mem⟩
    | cons =>
      rw [String.intercalate_cons_cons, String.toList_append, String.toList_append, mem_append, mem_append] at mem
      rcases mem with (first | apart) | later
      · exact .inr ⟨name, mem_cons_self, first⟩
      · exact .inl apart
      · exact (ih later).imp_right fun ⟨other, member, letter⟩ => ⟨other, mem_cons_of_mem name member, letter⟩

theorem parts_text? {path : Path} {text : String} (wordlike : path.Wordlike) (written : path.text? = some text) :
    ∀ c ∈ text.toList, isPathPart c = true := by
  obtain ⟨plain, made⟩ := ite_none_right_eq_some.mp written
  obtain rfl := some.inj made
  have colons : ∀ c ∈ "::".toList, isPathPart c = true := fun c mem => by
    obtain rfl : c = ':' := by simpa using mem
    simp [isPathPart]
  intro c mem
  rcases mem_append.mp (toList_append ▸ mem) with root | inner
  · split at root
    · exact colons c root
    · cases root
  · rcases mem_intercalate inner with apart | ⟨name, member, letter⟩
    · exact colons c apart
    · obtain ⟨segment, found, rfl⟩ := mem_map.mp member
      simp [isPathPart, wordlike plain segment found c letter]

theorem parts_bound (looked : analyze? code = some given) (bound : given.bound = some path) :
    ∀ c ∈ path.toList, isPathPart c = true := by
  obtain ⟨_, read, made⟩ := map_eq_some_iff.mp looked
  split at made
  · rw [← made] at bound
    cases bound
  · rw [← made] at bound
    have named := named_parse? read
    unfold calledPath at bound
    split at bound
    · rename_i called
      exact parts_text? (named _ (by rw [Expr.path?, called])) bound
    · cases bound

theorem parts_handler (looked : analyzeHandler? code = some given) (bound : given.bound = some path) :
    ∀ c ∈ path.toList, isPathPart c = true := by
  obtain ⟨e, read, rfl⟩ := map_eq_some_iff.mp looked
  have bound : pathOf e = some path := bound
  unfold pathOf at bound
  split at bound
  · rename_i named
    exact parts_text? (named_parse? read _ (by rw [Expr.path?, named])) bound
  · cases bound

end Blueprint

end LiveMarkup
