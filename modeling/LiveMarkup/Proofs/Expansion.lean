import LiveMarkup.Proofs.Provenance

/-!
Compiling blocks and the blocks in their code. What is found in the code of a block has been copied from inside the block, up
to the indentation of its lines, and it weighs less than the block, so that the expansion of a file comes to an end. For this
the code that is embedded has to be complete for the search: where the search misreads a literal it runs on into what the
generator has written.
-/

namespace LiveMarkup.Codegen
open List Option Spot Blueprint
open Template (Strung Tree moved parseBlock)
open Expression.Lexer (moved_cons)

section Cutting

variable {cs a b : List Char} {n : Nat}

theorem moved_zero (cs : List Char) : moved 0 cs = cs := by
  induction cs with
  | nil => rfl
  | cons _ _ ih =>
    rw [moved_cons, ih]
    split
    · rename_i feed
      rw [feed]
      rfl
    · rfl

theorem moved_cut (same : moved n cs = a ++ b)
    (clear : (∀ c ∈ a.getLast?, c ≠ '\n' ∧ c ≠ ' ') ∨ ∀ c ∈ b.head?, c ≠ ' ') :
    ∃ front back, cs = front ++ back ∧ a = moved n front ∧ b = moved n back := by
  induction cs generalizing a with
  | nil =>
    obtain ⟨rfl, rfl⟩ := append_eq_nil_iff.mp same.symm
    exact ⟨[], [], rfl, rfl, rfl⟩
  | cons c cs ih =>
    cases a with
    | nil => exact ⟨[], c :: cs, rfl, rfl, same.symm⟩
    | cons d a =>
      rw [moved_cons] at same
      by_cases feed : c = '\n'
      · rw [if_pos feed, cons_append, cons_append] at same
        obtain ⟨rfl, tails⟩ := cons.inj same
        clear same
        obtain ⟨more, rfl, rest⟩ | ⟨more, blanks, rfl⟩ := append_eq_append_iff.mp tails
        · have clear : (∀ c ∈ more.getLast?, c ≠ '\n' ∧ c ≠ ' ') ∨ ∀ c ∈ b.head?, c ≠ ' ' := by
            refine clear.imp_left fun last c mem => last c ?_
            rw [← cons_append, getLast?_append, mem_def.mp mem]
            rfl
          obtain ⟨front, back, rfl, rfl, rfl⟩ := ih rest clear
          exact ⟨c :: front, back, rfl, by rw [moved_cons, if_pos feed]; rfl, rfl⟩
        · have blank : ∀ c ∈ a ++ more, c = ' ' := fun c mem => eq_of_mem_replicate (blanks ▸ mem)
          cases more with
          | nil =>
            rw [append_nil] at blanks
            exact ⟨[c], cs, rfl, by rw [moved_cons, if_pos feed, blanks]; simp [moved], rfl⟩
          | cons d =>
            exfalso
            rcases clear with last | head
            · obtain ⟨c, there⟩ := ne_none_iff_exists'.mp (mt getLast?_eq_none_iff.mp (cons_ne_nil '\n' a))
              obtain ⟨feed, solid⟩ := last c there
              rcases mem_cons.mp (mem_of_getLast? there) with same | mem
              · exact feed same
              · exact solid (blank c (mem_append_left _ mem))
            · exact head d rfl (blank d (by simp))
      · rw [if_neg feed] at same
        obtain ⟨rfl, tails⟩ := cons.inj same
        clear same
        have clear : (∀ c ∈ a.getLast?, c ≠ '\n' ∧ c ≠ ' ') ∨ ∀ c ∈ b.head?, c ≠ ' ' := by
          refine clear.imp_left fun last c mem => last c ?_
          rw [getLast?_cons, mem_def.mp mem]
          rfl
        obtain ⟨front, back, rfl, rfl, rfl⟩ := ih tails clear
        exact ⟨c :: front, back, rfl, by rw [moved_cons, if_neg feed]; rfl, rfl⟩

/-- A text of which every line but the first may have been moved. -/
def IsCopy (text copy : List Char) : Prop := ∃ n, copy = moved n text

theorem copy_of_infix {copy : List Char} (stands : copy <:+: moved n cs) (head : ∀ c ∈ copy.head?, c ≠ ' ')
    (last : ∀ c ∈ copy.getLast?, c ≠ '\n' ∧ c ≠ ' ') : ∃ text, text <:+: cs ∧ IsCopy text copy := by
  obtain ⟨_, _, same⟩ := stands
  rw [append_assoc] at same
  cases copy with
  | nil => exact ⟨[], nil_infix, n, rfl⟩
  | cons =>
    obtain ⟨lead, _, rfl, -, tail⟩ := moved_cut same.symm (.inr head)
    obtain ⟨text, back, rfl, there, -⟩ := moved_cut tail.symm (.inl last)
    exact ⟨text, ⟨lead, back, by simp⟩, n, there⟩

end Cutting

section Weighing

variable {texts : List (List Char)} {cs : List Char}

def weight (cs : List Char) : Nat := cs.countP (· != ' ')

theorem weight_append (a b : List Char) : weight (a ++ b) = weight a + weight b := countP_append

theorem weight_le_length (cs : List Char) : weight cs ≤ cs.length := countP_le_length

theorem weight_moved (n : Nat) (cs : List Char) : weight (moved n cs) = weight cs := by
  induction cs with
  | nil => rfl
  | cons c cs ih =>
    have first : weight (c :: cs) = weight [c] + weight cs := weight_append [c] cs
    rw [moved_cons, weight_append, ih, first]
    split
    · rename_i feed
      simp [weight, feed, countP_replicate]
    · rfl

theorem weight_strung (strung : Strung texts cs) : (texts.map weight).sum ≤ weight cs := by
  induction strung with
  | nil => exact Nat.zero_le _
  | cons =>
    rw [map_cons, sum_cons, weight_append, weight_append]
    omega

end Weighing

section Copying

open List

variable {name : List Char} {found more : List Block} {pieces others texts : List (List Char)} {code : String} {n : Nat}

/-- Blocks that have been copied from inside of pieces of code, and weigh no more than these. -/
structure Copied (pieces : List (List Char)) (found : List Block) : Prop where
  within : ∀ block ∈ found, ∃ piece ∈ pieces, ∃ text, text <:+: piece ∧ IsCopy text block
  light : (found.map weight).sum ≤ (pieces.map weight).sum

theorem copied_nil : Copied pieces [] := ⟨nofun, Nat.zero_le _⟩

theorem Copied.append (one : Copied pieces found) (two : Copied others more) : Copied (pieces ++ others) (found ++ more) where
  within block mem := by
    rcases mem_append.mp mem with here | there
    · obtain ⟨piece, member, holds⟩ := one.within block here
      exact ⟨piece, mem_append_left _ member, holds⟩
    · obtain ⟨piece, member, holds⟩ := two.within block there
      exact ⟨piece, mem_append_right _ member, holds⟩
  light := by
    have first := one.light
    have second := two.light
    rw [map_append, map_append, sum_append, sum_append]
    omega

theorem Copied.perm (copied : Copied pieces found) (same : more ~ found) : Copied pieces more where
  within block mem := copied.within block (same.mem_iff.mp mem)
  light := by
    rw [(same.map weight).sum_eq]
    exact copied.light

theorem sum_weight_subperm (within : pieces <+~ others) : (pieces.map weight).sum ≤ (others.map weight).sum := by
  obtain ⟨_, same, sublist⟩ := within
  rw [← (same.map weight).sum_eq]
  exact (sublist.map weight).sum_le_sum fun _ _ => Nat.zero_le _

theorem Copied.mono (copied : Copied pieces found) (within : pieces <+~ others) : Copied others found where
  within block mem := by
    obtain ⟨piece, member, holds⟩ := copied.within block mem
    exact ⟨piece, within.subset member, holds⟩
  light := copied.light.trans (sum_weight_subperm within)

theorem copied_of_combed (plain : Site.Plain name) (combed : Combed name (.start (moved n code.toList)) found) :
    Copied [code.toList] found where
  within block mem := by
    have framed := combed.framed block mem
    have stands : block <:+: moved n code.toList := combed.strung.infix block mem
    refine ⟨_, mem_singleton_self _, copy_of_infix stands (fun c head => ?_) fun c last => ?_⟩
    · obtain ⟨_, rfl⟩ := framed.begins
      rintro rfl
      cases name with
      | nil => exact absurd (some.inj head) (by decide)
      | cons =>
        obtain rfl := some.inj head
        exact plain ' ' mem_cons_self (by decide)
    · rcases framed.ends with brace | brace <;> rw [brace] at last <;> obtain rfl := some.inj last <;> decide
  light := by
    have whole := weight_strung combed.strung
    rw [show (start (moved n code.toList)).rest = moved n code.toList from rfl, weight_moved] at whole
    simpa using whole

theorem copied_of_stem {p : List Passage} {used : List (List Char)}
    (stem : Stem (fun passage found => ∀ pieces, ComesFrom passage pieces → Copied pieces found) p found)
    (source : Stem ComesFrom p used) : Copied used found := by
  obtain ⟨_, good, order⟩ := stem
  obtain ⟨sources, from_, again⟩ := source
  refine Copied.perm (Copied.mono ?_ again.symm.subperm) order
  clear order again
  induction good generalizing sources with
  | nil =>
    cases from_
    exact copied_nil
  | cons first _ ih =>
    cases from_ with | cons origin rest =>
    exact (first _ origin).append (ih _ rest)

end Copying

section Generating

variable {name : List Char} {roots : List Tree} {blueprint : Blueprint}

theorem finds_generate (plain : Site.Plain name) (named : Tree.NamedAll roots) (built : build roots = .ok blueprint)
    (complete : ∀ code ∈ Tree.codesAll roots, Complete name code) (context : Context) :
    ∃ found, Finds name (.start (generate blueprint context).1.toList) found ∧ Copied (Tree.texts roots) found := by
  have drawn := drawn_passages named built context.target
  have each : ∀ passage ∈ passages context.target blueprint, ∀ m, ∃ found,
      (∀ pieces, ComesFrom passage pieces → Copied pieces found) ∧ Crosses name (moved m passage.text.toList) found := by
    intro passage member m
    by_cases barren : Barren passage.text
    · exact ⟨[], fun _ _ => copied_nil, barren name plain m⟩
    · have mem := (drawn.mem member).resolve_left barren
      obtain ⟨code, embedded, same⟩ := mem_map.mp mem
      obtain ⟨found, combed⟩ := complete code embedded m
      rw [same] at combed
      refine ⟨found, fun pieces origin => ?_, .of_combed combed plain⟩
      rcases origin with ⟨-, other⟩ | rfl
      · exact absurd other barren
      · exact copied_of_combed plain combed
  obtain ⟨found, stem, crosses⟩ := (woven_generate context blueprint).crossed name plain _ each 0
  obtain ⟨_, source, mem⟩ := drawn
  rw [blueprint_reworded_id, moved_zero] at crosses
  have ends : Finds name ((start (generate blueprint context).1.toList).skip (generate blueprint context).1.toList.length) [] :=
    .none (Site.next_nil (by simp [rest_skip, start]))
  have finds := crosses (.start (generate blueprint context).1.toList) [] [] (append_nil _).symm rfl Site.shut_nil ends
  rw [append_nil] at finds
  exact ⟨found, finds, (copied_of_stem stem source).mono mem⟩

end Generating

section Meeting

variable {name : List Char} {spot start brace : Spot} {found : List Block} {other : Spot}

theorem same_site {opening : Spot} (one : Site.next name spot = some (start, brace))
    (two : Site.next name spot = some (other, opening)) : start = other ∧ brace = opening :=
  Prod.mk.inj (some.inj (one.symm.trans two))

theorem same_block {text : String} {roots others : List Tree} {bytes more : Nat} (one : parseBlock text = .ok (roots, bytes))
    (two : parseBlock text = .ok (others, more)) : roots = others ∧ bytes = more :=
  Prod.mk.inj (Except.ok.inj (one.symm.trans two))

/-- The blocks that the search meets from a spot on, with their names and their braces. Behind a block that is refused it does
not go on. -/
inductive Meets (name : List Char) : Spot → Spot → Spot → Prop
  | here {spot start brace : Spot} (found : Site.next name spot = some (start, brace)) : Meets name spot start brace
  | later {spot first opening start brace : Spot} {roots : List Tree} {bytes : Nat}
      (found : Site.next name spot = some (first, opening)) (read : parseBlock (String.ofList opening.rest) = .ok (roots, bytes))
      (behind : Meets name (opening.skipBytes bytes) start brace) : Meets name spot start brace

/-- The text of a block, up to the brace that closes it, or to the one that opens it if the block is refused. -/
def blockText (start brace : Spot) : Block :=
  match parseBlock (String.ofList brace.rest) with
  | .ok (_, bytes) => start.textTo (brace.skipBytes bytes)
  | .error _ => start.textTo (brace.skip 1)

theorem blockText_read {roots : List Tree} {bytes : Nat} (read : parseBlock (String.ofList brace.rest) = .ok (roots, bytes)) :
    blockText start brace = start.textTo (brace.skipBytes bytes) := by
  unfold blockText
  rw [read]

theorem blockText_refused (fails : Refused brace.rest) : blockText start brace = start.textTo (brace.skip 1) := by
  unfold blockText
  split
  · rename_i read
    exact absurd read (fails _)
  · rfl

theorem Meets.mem (meets : Meets name spot start brace) (finds : Finds name spot found) : blockText start brace ∈ found := by
  induction meets generalizing found with
  | here here =>
    cases finds with
    | none ended => cases here.symm.trans ended
    | block there read =>
      obtain ⟨rfl, rfl⟩ := same_site here there
      exact blockText_read read ▸ mem_cons_self
    | refused _ there fails =>
      obtain ⟨rfl, rfl⟩ := same_site here there
      exact blockText_refused fails ▸ mem_cons_self
  | later here read _ ih =>
    cases finds with
    | none ended => cases here.symm.trans ended
    | block there again behind =>
      obtain ⟨rfl, rfl⟩ := same_site here there
      obtain ⟨-, rfl⟩ := same_block read again
      exact mem_cons_of_mem _ (ih behind)
    | refused _ there fails =>
      obtain ⟨rfl, rfl⟩ := same_site here there
      exact absurd read (fails _)

def Onward (spot other : Spot) : Prop := ∃ passed, spot.rest = passed ++ other.rest

theorem Onward.skip (onward : Onward spot other) (n : Nat) : Onward spot (other.skip n) := by
  obtain ⟨passed, same⟩ := onward
  refine ⟨passed ++ other.rest.take n, ?_⟩
  rw [rest_skip, append_assoc, take_append_drop]
  exact same

theorem onward_next (found : Site.next name spot = some (start, brace)) :
    Onward spot start ∧ start.rest ≠ [] ∧ ∃ n, brace = start.skip n :=
  nextFrom_skips (fun _ n onward => onward.skip n) ⟨[], rfl⟩ found

theorem weight_block {n : Nat} (found : Site.next name spot = some (start, brace)) :
    weight (start.textTo (brace.skip n)) + weight (brace.skip n).rest ≤ weight spot.rest := by
  obtain ⟨⟨_, there⟩, -, _, rfl⟩ := onward_next found
  rw [skip_skip, textTo_skip, rest_skip, there, weight_append, ← weight_append, take_append_drop]
  omega

theorem exists_finds (name : List Char) (spot : Spot) :
    ∃ found, Finds name spot found ∧ (found.map weight).sum ≤ weight spot.rest := by
  induction size : spot.rest.length using Nat.strong_induction_on generalizing spot with
  | _ m ih =>
    cases there : Site.next name spot with
    | none => exact ⟨[], .none there, Nat.zero_le _⟩
    | some site =>
      obtain ⟨start, brace⟩ := site
      have light (n : Nat) := @weight_block name spot start brace n there
      cases read : parseBlock (String.ofList brace.rest) with
      | error =>
        refine ⟨[start.textTo (brace.skip 1)], .refused [] there fun parsed other => ?_, ?_⟩
        · cases read.symm.trans other
        · have one := light 1
          rw [map_singleton, sum_singleton]
          omega
      | ok parsed =>
        obtain ⟨_, bytes⟩ := parsed
        obtain ⟨⟨_, whole⟩, -, n, rfl⟩ := onward_next there
        obtain ⟨k, _, _, count, -⟩ := skip_block read
        have behind : (start.skip n).skipBytes bytes = (start.skip n).skip k := by
          rw [skipBytes_skip (by simpa using count []), skip_skip]
        have less : ((start.skip n).skip k).rest.length < m := by
          rw [skip_skip, rest_skip, length_drop, ← size, whole, length_append]
          omega
        obtain ⟨_, finds, _⟩ := ih _ less _ rfl
        refine ⟨_, .block there read (behind ▸ finds), ?_⟩
        have one := light k
        rw [behind, map_cons, sum_cons]
        omega

end Meeting

section Expanding

variable {name file : List Char} {first context : Context} {within : Option (Nat × Nat)} {spot start brace : Spot}
  {roots : List Tree} {bytes : Nat} {blueprint : Blueprint} {found : List Block}

theorem inner_of_block (next : Site.next name spot = some (start, brace))
    (read : parseBlock (String.ofList brace.rest) = .ok (roots, bytes)) :
    ∃ inner, start.textTo (brace.skipBytes bytes) = start.textTo brace ++ ('\x7b' :: inner ++ ['\x7d']) ∧
      Strung (Tree.texts roots) inner := by
  obtain ⟨-, -, _, rfl⟩ := onward_next next
  obtain ⟨_, -, -, count, inner, whole, size, strung⟩ := skip_block read
  refine ⟨inner, ?_, strung⟩
  rw [skipBytes_skip (by simpa using count []), textTo_skip, textTo_skip, take_add, whole, size, take_left]

/-- The code that is embedded in the blocks of a file, and in the blocks in their code, is complete. -/
def Sound (name file : List Char) (first : Context) : Prop :=
  ∀ within spot context start brace roots bytes, Searches name file first within spot context →
    Site.next name spot = some (start, brace) → parseBlock (String.ofList brace.rest) = .ok (roots, bytes) →
      ∀ code ∈ Tree.codesAll roots, Complete name code

theorem finds_inside (plain : Site.Plain name) (sound : Sound name file first)
    (search : Searches name file first within spot context) (builds : Builds name spot start brace bytes blueprint) :
    ∃ inner nested, start.textTo (brace.skipBytes bytes) = start.textTo brace ++ ('\x7b' :: inner ++ ['\x7d']) ∧
      Finds name (.start ((generate blueprint).run context).1.toList) nested ∧
      (∀ block ∈ nested, ∃ text, text <:+: inner ∧ IsCopy text block) ∧ (nested.map weight).sum ≤ weight inner := by
  obtain ⟨next, roots, read, built⟩ := builds
  obtain ⟨inner, text, strung⟩ := inner_of_block next read
  have template : Template.IsTemplate roots := ⟨String.ofList brace.rest, .inr ⟨bytes, read⟩⟩
  have complete := sound within spot context start brace roots bytes search next read
  obtain ⟨nested, finds, copied⟩ := finds_generate plain template.named built complete context
  refine ⟨inner, nested, text, finds, fun block mem => ?_, copied.light.trans (weight_strung strung)⟩
  obtain ⟨piece, member, text, stands, copy⟩ := copied.within block mem
  have embedded : piece <:+: inner := strung.infix piece member
  exact ⟨text, stands.trans embedded, copy⟩

theorem lighter (plain : Site.Plain name) (sound : Sound name file first)
    (search : Searches name file first within spot context) (builds : Builds name spot start brace bytes blueprint)
    (finds : Finds name spot found) :
    ∃ nested later, Finds name (.start ((generate blueprint).run context).1.toList) nested ∧
      Finds name (brace.skipBytes bytes) later ∧ (nested.map weight).sum + (later.map weight).sum < (found.map weight).sum := by
  obtain ⟨inner, nested, text, mem, -, _⟩ := finds_inside plain sound search builds
  obtain ⟨next, _, read, -⟩ := builds
  have braces : weight ('\x7b' :: inner ++ ['\x7d']) = weight inner + 2 := by simp [weight, countP_append]
  cases finds with
  | none ended => cases next.symm.trans ended
  | refused _ there fails =>
    obtain ⟨rfl, rfl⟩ := same_site next there
    exact absurd read (fails _)
  | @block _ _ _ _ _ later there again behind =>
    obtain ⟨rfl, rfl⟩ := same_site next there
    obtain ⟨-, rfl⟩ := same_block read again
    refine ⟨nested, later, mem, behind, ?_⟩
    rw [map_cons, sum_cons, text, weight_append, braces]
    omega

/-- The searches that the expansion makes one after the other once it has built a block. -/
inductive GoesOn (name file : List Char) :
    Option (Nat × Nat) × Spot × Context → Option (Nat × Nat) × Spot × Context → Prop
  | inside {within : Option (Nat × Nat)} {spot start brace : Spot} {context : Context} {bytes : Nat} {blueprint : Blueprint}
      (builds : Builds name spot start brace bytes blueprint) :
      GoesOn name file (some (blockRegion name file within start brace bytes),
        .start ((generate blueprint).run context).1.toList, ((generate blueprint).run context).2) (within, spot, context)
  | behind {within : Option (Nat × Nat)} {spot start brace : Spot} {context after : Context} {bytes fuel : Nat}
      {blueprint : Blueprint} {result : List Char × Nat} (builds : Builds name spot start brace bytes blueprint)
      (compiled : (Module.expand name file fuel (some (blockRegion name file within start brace bytes))
        (.start ((generate blueprint).run context).1.toList)).run ((generate blueprint).run context).2 = .ok (result, after)) :
      GoesOn name file (within, brace.skipBytes bytes, after) (within, spot, context)

theorem acc_goesOn (plain : Site.Plain name) (sound : Sound name file first)
    (search : Searches name file first within spot context) (finds : Finds name spot found) :
    Acc (GoesOn name file) (within, spot, context) := by
  -- on the weight of what is found from the spot on: the searches in the code and behind the block find less
  induction size : (found.map weight).sum using Nat.strong_induction_on generalizing within spot context found with
  | _ total ih =>
    refine ⟨_, ?_⟩
    rintro _ (⟨builds⟩ | ⟨builds, compiled⟩)
    · obtain ⟨_, _, mem, -, _⟩ := lighter plain sound search builds finds
      exact ih _ (by omega) (search.inside builds) mem rfl
    · obtain ⟨_, _, -, behind, _⟩ := lighter plain sound search builds finds
      exact ih _ (by omega) (search.behind builds compiled) behind rfl

theorem expand_enough (plain : Site.Plain name) (sound : Sound name file first) {fuel more : Nat}
    (search : Searches name file first within spot context) (finds : Finds name spot found)
    (enough : (found.map weight).sum < fuel) (least : (found.map weight).sum < more) :
    (Module.expand name file fuel within spot).run context = (Module.expand name file more within spot).run context := by
  -- on the weight again; without a block, or when it is refused, neither run goes on
  induction size : (found.map weight).sum using Nat.strong_induction_on generalizing within spot context found fuel more with
  | _ total ih =>
    obtain ⟨fuel, rfl⟩ := Nat.exists_eq_add_one_of_ne_zero (Nat.ne_zero_of_lt enough)
    obtain ⟨more, rfl⟩ := Nat.exists_eq_add_one_of_ne_zero (Nat.ne_zero_of_lt least)
    cases next : Site.next name spot with
    | none => simp only [Module.expand, next]
    | some site =>
      obtain ⟨start, brace⟩ := site
      obtain ⟨_, runs, -⟩ | ⟨_, bytes, blueprint, placed, builds⟩ :=
        expand_fails_or_builds file within next
      · rw [runs, runs]
      · obtain ⟨nested, later, mem, behind, _⟩ := lighter plain sound search builds finds
        have inner := @ih (nested.map weight).sum (by omega) _ _ _ _ fuel more (search.inside builds) mem
          (by omega) (by omega) rfl
        rw [expand_built builds placed, expand_built builds placed]
        dsimp only
        rw [inner]
        cases compiled : (Module.expand name file more (some (blockRegion name file within start brace bytes))
            (.start ((generate blueprint).run context).1.toList)).run ((generate blueprint).run context).2 with
        | error => rfl
        | ok result =>
          obtain ⟨⟨code, count⟩, _⟩ := result
          have tail := @ih (later.map weight).sum (by omega) _ _ _ _ fuel more (search.behind builds compiled) behind
            (by omega) (by omega) rfl
          exact congrArg (fun run : Except _ _ => do
            let made ← run
            return ((spot.textTo start ++ code ++ made.1.1, 1 + count + made.1.2), made.2)) tail

/-- The expansion of a file whose embedded code is complete comes to an end, for which one unit of fuel more than the file has
characters is enough. Every block in the code of another is a text between the other's braces, with its lines moved. -/
theorem expansion_ends {source : String} {options : Options} (plain : Site.Plain options.keyword.toList)
    (sound : Sound options.keyword.toList source.toList (.ofOptions options)) :
    Acc (GoesOn options.keyword.toList source.toList) (none, .start source.toList, .ofOptions options) ∧
      (∀ fuel, source.toList.length < fuel →
        (Module.expand options.keyword.toList source.toList fuel none (.start source.toList)).run (.ofOptions options) =
          (Module.expand options.keyword.toList source.toList (source.toList.length + 1) none
            (.start source.toList)).run (.ofOptions options)) ∧
      ∀ within spot context start brace bytes blueprint,
        Searches options.keyword.toList source.toList (.ofOptions options) within spot context →
        Builds options.keyword.toList spot start brace bytes blueprint →
        ∃ inner, start.textTo (brace.skipBytes bytes) = start.textTo brace ++ ('\x7b' :: inner ++ ['\x7d']) ∧
          ∀ other opening, Meets options.keyword.toList (.start ((generate blueprint).run context).1.toList) other opening →
            ∃ text, text <:+: inner ∧ IsCopy text (blockText other opening) := by
  obtain ⟨found, finds, light⟩ := exists_finds options.keyword.toList (.start source.toList)
  have size : weight (Spot.start source.toList).rest ≤ source.toList.length := weight_le_length source.toList
  refine ⟨acc_goesOn plain sound .file finds, fun fuel enough => ?_, ?_⟩
  · exact expand_enough plain sound .file finds (by omega) (by omega)
  · intro within spot context start brace bytes blueprint search builds
    obtain ⟨inner, nested, text, inside, copies, -⟩ := finds_inside plain sound search builds
    exact ⟨inner, text, fun other opening meets => copies _ (meets.mem inside)⟩

end Expanding
section Nesting
open Blueprint
open Template (parseBlock)

/-- A paragraph whose code is a block that consists of a line break. -/
def nest : String := "view!\x7b<p>\x7bview!\x7b<br/>\x7d\x7d</p>\x7d"

def nested : String := "view!\x7b<br/>\x7d"

def nestTrees : List Tree := paragraphTrees nested ⟨⟨4, 1, 5⟩, 18⟩ ⟨⟨1, 1, 2⟩, 22⟩

def nestBlueprint : Blueprint := paragraphBlueprint nested ⟨⟨4, 1, 5⟩, 18⟩ ⟨⟨1, 1, 2⟩, 22⟩

def lineBreak : Tree := .element "br" [] [] true ⟨⟨1, 1, 2⟩, 6⟩

def breakBlueprint : Blueprint := ⟨false, [.element ⟨"br", true, false, 0, 0, ⟨⟨1, 1, 2⟩, 6⟩, false⟩ [] []]⟩

def nestCode : String :=
  "\x7b\n    let __el = __TMPL.with(__clone);\n    __insert(&__el, move || view!\x7b<br/>\x7d, None);\n    __el\n\x7d"

def nestContext : Context := ((generate nestBlueprint).run (.ofOptions {})).2

def nestBrace : Spot := ⟨⟨5, 1, 6⟩, some '!', "\x7b<p>\x7bview!\x7b<br/>\x7d\x7d</p>\x7d".toList⟩

def codeStart : Spot := ⟨⟨67, 3, 29⟩, some ' ', "view!\x7b<br/>\x7d, None);\n    __el\n\x7d".toList⟩

def codeBrace : Spot := ⟨⟨72, 3, 34⟩, some '!', "\x7b<br/>\x7d, None);\n    __el\n\x7d".toList⟩

theorem analyze_nested : analyze? nested = some ⟨nested, none, true, none⟩ := by decide +kernel

theorem build_nest : build nestTrees = .ok nestBlueprint := build_paragraph analyze_nested

theorem build_lineBreak : Blueprint.build [lineBreak] = .ok breakBlueprint := by
  have ordinary : Markup.Element.isComponent "br" = false := by decide
  have html : Markup.Element.isSvgName "br" = false := by decide
  have void : Markup.Element.isVoid "br" = true := by decide
  unfold Blueprint.build lineBreak
  simp only [Blueprint.nodes]
  unfold Blueprint.node
  simp [ordinary, html, void, Blueprint.nodes, Blueprint.flatten]
  rfl

theorem printable_lineBreak : lineBreak.Printable :=
  ⟨⟨⟨'b', ['r'], by cbv, by decide⟩, by simp [Template.Parser.isNamePart]⟩, nofun, fun _ => rfl, trivial⟩

theorem printed_lineBreak : '\x7b' :: lineBreak.printed ++ ['\x7d'] = ['\x7b', '<', 'b', 'r', '/', '>', '\x7d'] := by cbv

theorem parse_lineBreak (rest : List Char) :
    parseBlock (String.ofList ('\x7b' :: '<' :: 'b' :: 'r' :: '/' :: '>' :: '\x7d' :: rest)) = .ok ([lineBreak], 7) := by
  have read := Template.parseBlock_printed printable_lineBreak rfl rest
  rw [printed_lineBreak] at read
  exact read.trans rfl

theorem complete_nested : Complete ['v', 'i', 'e', 'w'] nested := by
  intro n
  have text : nested.toList = ['v', 'i', 'e', 'w', '!', '\x7b', '<', 'b', 'r', '/', '>', '\x7d'] := by cbv
  rw [Expression.Lexer.moved_line n (by rw [text]; decide), text]
  exact ⟨_, .block rfl (by decide) (by decide) (n := 5) (by decide) (fun t => parse_lineBreak t) (.done (by decide))⟩

section
set_option maxRecDepth 10000

theorem next_nest : Site.next ['v', 'i', 'e', 'w'] (.start nest.toList) = some (.start nest.toList, nestBrace) := by cbv

theorem parse_nest : parseBlock (String.ofList nestBrace.rest) = .ok (nestTrees, 23) := by cbv

theorem generate_nest : ((generate nestBlueprint).run (.ofOptions {})).1 = nestCode := by cbv

theorem next_behind_nest : Site.next ['v', 'i', 'e', 'w'] (nestBrace.skipBytes 23) = none := by cbv

theorem next_nestCode : Site.next ['v', 'i', 'e', 'w'] (.start nestCode.toList) = some (codeStart, codeBrace) := by cbv

theorem parse_codeBrace : parseBlock (String.ofList codeBrace.rest) = .ok ([lineBreak], 7) := by
  have text : codeBrace.rest =
      '\x7b' :: '<' :: 'b' :: 'r' :: '/' :: '>' :: '\x7d' :: ", None);\n    __el\n\x7d".toList := by cbv
  rw [text, parse_lineBreak]

theorem next_behind_code : Site.next ['v', 'i', 'e', 'w'] (codeBrace.skipBytes 7) = none := by cbv

theorem next_breakCode :
    Site.next ['v', 'i', 'e', 'w'] (.start ((generate breakBlueprint).run nestContext).1.toList) = none := by cbv

end

theorem searches_nest {within : Option (Nat × Nat)} {spot : Spot} {context : Context}
    (search : Searches ['v', 'i', 'e', 'w'] nest.toList (.ofOptions {}) within spot context) :
    (spot = .start nest.toList ∧ context = .ofOptions {}) ∨ (spot = .start nestCode.toList ∧ context = nestContext) ∨
      Site.next ['v', 'i', 'e', 'w'] spot = none := by
  induction search with
  | file => exact .inl ⟨rfl, rfl⟩
  | inside _ builds ih =>
    obtain ⟨next, _, read, built⟩ := builds
    rcases ih with ⟨rfl, rfl⟩ | ⟨rfl, rfl⟩ | none
    · obtain ⟨rfl, rfl⟩ := same_site next next_nest
      obtain ⟨rfl, rfl⟩ := same_block read parse_nest
      obtain rfl := Except.ok.inj (built.symm.trans build_nest)
      exact .inr (.inl ⟨congrArg (start ∘ String.toList) generate_nest, rfl⟩)
    · obtain ⟨rfl, rfl⟩ := same_site next next_nestCode
      obtain ⟨rfl, rfl⟩ := same_block read parse_codeBrace
      obtain rfl := Except.ok.inj (built.symm.trans build_lineBreak)
      exact .inr (.inr next_breakCode)
    · cases next.symm.trans none
  | behind _ builds _ ih =>
    obtain ⟨next, _, read, -⟩ := builds
    rcases ih with ⟨rfl, -⟩ | ⟨rfl, -⟩ | none
    · obtain ⟨rfl, rfl⟩ := same_site next next_nest
      obtain ⟨-, rfl⟩ := same_block read parse_nest
      exact .inr (.inr next_behind_nest)
    · obtain ⟨rfl, rfl⟩ := same_site next next_nestCode
      obtain ⟨-, rfl⟩ := same_block read parse_codeBrace
      exact .inr (.inr next_behind_code)
    · cases next.symm.trans none

theorem sound_nest : Sound ['v', 'i', 'e', 'w'] nest.toList (.ofOptions {}) := by
  intro within spot context start brace roots bytes search next read code embedded
  rcases searches_nest search with ⟨rfl, -⟩ | ⟨rfl, -⟩ | none
  · obtain ⟨rfl, rfl⟩ := same_site next next_nest
    obtain ⟨rfl, -⟩ := same_block read parse_nest
    obtain rfl : code = nested := mem_singleton.mp embedded
    exact complete_nested
  · obtain ⟨rfl, rfl⟩ := same_site next next_nestCode
    obtain ⟨rfl, -⟩ := same_block read parse_codeBrace
    cases embedded
  · cases next.symm.trans none

/-- The expansion of the nest ends, and the block in its code is the one between its braces. -/
theorem expansion_ends_nest :
    Site.Plain ({} : Options).keyword.toList ∧ Sound ({} : Options).keyword.toList nest.toList (.ofOptions {}) ∧
      Acc (GoesOn ({} : Options).keyword.toList nest.toList) (none, .start nest.toList, .ofOptions {}) ∧
      ∃ text, text <:+: "<p>\x7bview!\x7b<br/>\x7d\x7d</p>".toList ∧ IsCopy text nested.toList := by
  have keyword : ({} : Options).keyword.toList = ['v', 'i', 'e', 'w'] := by cbv
  have plain : Site.Plain ({} : Options).keyword.toList := by
    rw [keyword]
    simp [Site.Plain, Expression.stops]
  have sound : Sound ({} : Options).keyword.toList nest.toList (.ofOptions {}) := keyword ▸ sound_nest
  obtain ⟨ends, -, copies⟩ := expansion_ends plain sound
  refine ⟨plain, sound, ends, ?_⟩
  rw [keyword] at copies
  obtain ⟨inner, text, copied⟩ := copies none _ _ _ _ _ nestBlueprint .file ⟨next_nest, nestTrees, parse_nest, build_nest⟩
  have whole : (Spot.start nest.toList).textTo (nestBrace.skipBytes 23) =
      (Spot.start nest.toList).textTo nestBrace ++ ('\x7b' :: "<p>\x7bview!\x7b<br/>\x7d\x7d</p>".toList ++ ['\x7d']) := by cbv
  have same := append_cancel_right (cons.inj (append_cancel_left (text.symm.trans whole))).2
  have block : blockText codeStart codeBrace = nested.toList := by
    rw [blockText_read parse_codeBrace]
    cbv
  rw [← block, ← same]
  refine copied codeStart codeBrace (.here ?_)
  rw [generate_nest]
  exact next_nestCode

end Nesting

section Overrunning
open Blueprint
open Template (parseBlock)

/-- A paragraph whose code is a block of three empty lines and a paragraph, which are longer once they are indented: the end of
the block is looked for behind the end of the file. -/
def overrun : String := "view!\x7b<p>\x7bview!\x7b\n\n\n<p>\x7bview!\x7b<br/>\x7d\x7d</p>\x7d\x7d</p>\x7d"

def lines : String := "view!\x7b\n\n\n<p>\x7bview!\x7b<br/>\x7d\x7d</p>\x7d"

def overrunBlueprint : Blueprint := paragraphBlueprint lines ⟨⟨4, 1, 5⟩, 37⟩ ⟨⟨1, 1, 2⟩, 41⟩

def linesBlueprint : Blueprint := paragraphBlueprint nested ⟨⟨19, 4, 8⟩, 33⟩ ⟨⟨16, 4, 5⟩, 37⟩

def overrunCode : String :=
  "\x7b\n    let __el = __TMPL.with(__clone);\n    __insert(&__el, move || view!\x7b\n    \n    \n    <p>\x7bview!\x7b<br/>\x7d\x7d</p>\x7d, None);\n    __el\n\x7d"

def overrunBrace : Spot := ⟨⟨5, 1, 6⟩, some '!', ('\x7b' :: "<p>\x7b".toList ++ lines.toList ++ "\x7d</p>\x7d".toList)⟩

def linesBlock : String := "\x7b\n    \n    \n    <p>\x7bview!\x7b<br/>\x7d\x7d</p>\x7d, None);\n    __el\n\x7d"

def linesStart : Spot := ⟨⟨67, 3, 29⟩, some ' ', "view!".toList ++ linesBlock.toList⟩

def linesBrace : Spot := ⟨⟨72, 3, 34⟩, some '!', linesBlock.toList⟩

theorem analyze_lines : analyze? lines = some ⟨lines, none, true, none⟩ := by decide +kernel

section
set_option maxRecDepth 10000

theorem next_overrun : Site.next ['v', 'i', 'e', 'w'] (.start overrun.toList) = some (.start overrun.toList, overrunBrace) := by cbv

theorem parse_overrun : parseBlock (String.ofList overrunBrace.rest) =
    .ok (paragraphTrees lines ⟨⟨4, 1, 5⟩, 37⟩ ⟨⟨1, 1, 2⟩, 41⟩, 42) := by cbv

theorem generate_overrun : ((generate overrunBlueprint).run (.ofOptions {})).1 = overrunCode := by cbv

theorem next_overrunCode : Site.next ['v', 'i', 'e', 'w'] (.start overrunCode.toList) = some (linesStart, linesBrace) := by cbv

theorem parse_lines : parseBlock (String.ofList linesBrace.rest) =
    .ok (paragraphTrees nested ⟨⟨19, 4, 8⟩, 33⟩ ⟨⟨16, 4, 5⟩, 37⟩, 38) := by cbv

theorem generate_lines :
    ((generate linesBlueprint).run ((generate overrunBlueprint).run (.ofOptions {})).2).1 = nestCode := by cbv

theorem place_overrun : Module.blockPlace ['v', 'i', 'e', 'w'] overrun.toList none (.start overrun.toList) overrunBrace =
    some ⟨0, 5, ⟨5, 1, 6⟩⟩ := by cbv

theorem place_lines : Module.blockPlace ['v', 'i', 'e', 'w'] overrun.toList (some (5, 47)) linesStart linesBrace =
    some ⟨10, 15, ⟨15, 1, 16⟩⟩ := by cbv

theorem unplaced_code : Module.blockPlace ['v', 'i', 'e', 'w'] overrun.toList (some (15, 53)) codeStart codeBrace = none := by cbv

end

theorem compile_overrun : compileModule overrun {} = .error .badCut := by
  have keyword : ({} : Options).keyword.toList = ['v', 'i', 'e', 'w'] := by cbv
  have size : overrun.toList.length = 47 := by cbv
  have inner (context : Context) : (Module.expand ['v', 'i', 'e', 'w'] overrun.toList 46 (some (15, 53))
      (.start nestCode.toList)).run context = .error .badCut := expand_unplaced next_nestCode unplaced_code
  have middle : (Module.expand ['v', 'i', 'e', 'w'] overrun.toList 47 (some (5, 47))
      (.start overrunCode.toList)).run ((generate overrunBlueprint).run (.ofOptions {})).2 = .error .badCut := by
    have offset := (blockPlace_eq_some place_lines).2.1
    rw [expand_built ⟨next_overrunCode, _, parse_lines, build_paragraph analyze_nested⟩ place_lines, blockRegion, ← offset]
    dsimp only
    rw [show paragraphBlueprint nested _ _ = linesBlueprint from rfl, generate_lines, inner]
    rfl
  have offset := (blockPlace_eq_some place_overrun).2.1
  rw [compileModule_eq_error_iff, keyword, size,
    expand_built ⟨next_overrun, _, parse_overrun, build_paragraph analyze_lines⟩ place_overrun, blockRegion, ← offset]
  dsimp only
  rw [show paragraphBlueprint lines _ _ = overrunBlueprint from rfl, generate_overrun, middle]
  rfl

end Overrunning
section Misreading
open Blueprint
open Expression.Lexer (spelling?)
open Template (parseBlock)

def rawCall : String := "g(cr\"\\\", \"view!\x7b\")"

def rawPanel : String := "view!\x7b<p>\x7bg(cr\"\\\", \"view!\x7b\")\x7d</p>\x7d"

def rawTrees : List Tree := paragraphTrees rawCall ⟨⟨4, 1, 5⟩, 24⟩ ⟨⟨1, 1, 2⟩, 28⟩

def rawBlueprint : Blueprint := paragraphBlueprint rawCall ⟨⟨4, 1, 5⟩, 24⟩ ⟨⟨1, 1, 2⟩, 28⟩

def rawBrace : Spot := ⟨⟨5, 1, 6⟩, some '!', "\x7b<p>\x7bg(cr\"\\\", \"view!\x7b\")\x7d</p>\x7d".toList⟩

/-- The client's code of the paragraph, in which the search takes the quotation mark behind the backslash for a part of the
first literal, and so enters the second one. -/
def rawCode : String :=
  "\x7b\n    let __el = __TMPL.with(__clone);\n    __insert(&__el, move || g(cr\"\\\", \"view!\x7b\"), None);\n    __el\n\x7d"

def strayStart : Spot := ⟨⟨77, 3, 39⟩, some '"', "view!\x7b\"), None);\n    __el\n\x7d".toList⟩

def strayBrace : Spot := ⟨⟨82, 3, 44⟩, some '!', "\x7b\"), None);\n    __el\n\x7d".toList⟩

theorem analyze_rawCall : analyze? rawCall = some ⟨rawCall, none, true, none⟩ := by decide +kernel

theorem build_raw : build rawTrees = .ok rawBlueprint := build_paragraph analyze_rawCall

section
set_option maxRecDepth 10000

theorem next_rawPanel : Site.next ['v', 'i', 'e', 'w'] (.start rawPanel.toList) = some (.start rawPanel.toList, rawBrace) := by cbv

theorem parse_rawPanel : parseBlock (String.ofList rawBrace.rest) = .ok (rawTrees, 29) := by cbv

theorem generate_raw : ((generate rawBlueprint).run (.ofOptions {})).1 = rawCode := by cbv

theorem next_rawCode : Site.next ['v', 'i', 'e', 'w'] (.start rawCode.toList) = some (strayStart, strayBrace) := by cbv

end

/-- A block found in the code of another need not come from it, although the embedded code can be cut into tokens: it may hold
what the generator has written. -/
theorem generated_text_taken_for_block :
    ¬ ∀ (source : String) (options : Options) within spot context start brace roots bytes blueprint,
      Searches options.keyword.toList source.toList (.ofOptions options) within spot context →
      Site.next options.keyword.toList spot = some (start, brace) →
      parseBlock (String.ofList brace.rest) = .ok (roots, bytes) → Blueprint.build roots = .ok blueprint →
      (∀ code ∈ Tree.codesAll roots, (spelling? code.toList).isSome) →
      ∀ other opening, Meets options.keyword.toList (.start (generate blueprint context).1.toList) other opening →
        ∃ text, text <:+: start.textTo (brace.skipBytes bytes) ∧ IsCopy text (blockText other opening) := by
  intro copies
  have keyword : ({} : Options).keyword.toList = ['v', 'i', 'e', 'w'] := by cbv
  have cut : ∀ code ∈ Tree.codesAll rawTrees, (spelling? code.toList).isSome := by
    intro code embedded
    obtain rfl : code = rawCall := mem_singleton.mp embedded
    decide +kernel
  have copied := copies rawPanel {} none _ _ _ rawBrace _ 29 rawBlueprint .file (keyword ▸ next_rawPanel) parse_rawPanel build_raw cut
  rw [keyword] at copied
  obtain ⟨text, stands, n, copy⟩ := copied strayStart strayBrace (.here (generate_raw ▸ next_rawCode))
  have written : '_' ∈ blockText strayStart strayBrace := by decide +kernel
  rcases mem_moved (copy ▸ written) with inside | same
  · have whole : (Spot.start rawPanel.toList).textTo (rawBrace.skipBytes 29) = rawPanel.toList := by cbv
    have absent : '_' ∉ rawPanel.toList := by decide +kernel
    exact absent (whole ▸ stands.subset inside)
  · cases same

end Misreading
end LiveMarkup.Codegen
