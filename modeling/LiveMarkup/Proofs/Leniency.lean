import LiveMarkup.Proofs.Spelling
import Mathlib.Data.List.Infix
import Mathlib.Data.List.TakeWhile

/-!
Whatever is read, the trees that reading gives can be said in markup. A reader that forgives leaves nothing behind that
could not have been written properly: every piece that is cut off is a sound one, and every step over a piece keeps the
open elements sound. Only texts may come to stand beside each other.
-/

namespace LiveMarkup.Markup
open Text Option Prod
open String hiding data

variable {names : Attributes → Prop} {inSvg : Bool} {attrs : Attributes} {tag : String} {piece : Piece}

theorem Tree.expressibleAll_iff {trees : List Tree} :
    Tree.ExpressibleAll names inSvg trees ↔ ∀ tree ∈ trees, tree.Expressible names inSvg := by
  induction trees with
  | nil => simp [Tree.ExpressibleAll]
  | cons _ _ ih => simp [Tree.ExpressibleAll, ih]

theorem Tree.Expressible.below {svg : Bool}
    {children : List Tree} (expressible : (Tree.element tag svg attrs children).Expressible names inSvg) :
    Tree.ExpressibleAll names svg children := by
  obtain ⟨_, _, _, _, raw, solid⟩ := expressible
  cases kind : Element.isRawText tag with
  | false => exact solid kind
  | true =>
    rcases raw kind with rfl | ⟨body, rfl, some, _⟩
    · trivial
    · exact ⟨some, trivial⟩

section Splitting

variable {mark cs : List Char} {before after : List Char}

theorem splitOnceAt_eq (found : splitOnceAt mark cs = some (before, after)) : cs = before ++ (mark ++ after) := by
  induction cs generalizing before with
  | nil =>
    rw [splitOnceAt] at found
    split at found
    · rename_i empty
      obtain ⟨rfl, rfl⟩ := mk.inj (some.inj found)
      simpa using empty
    · cases found
  | cons _ _ ih =>
    rw [splitOnceAt] at found
    split at found
    · rename_i starts
      obtain ⟨rfl, rfl⟩ := mk.inj (some.inj found)
      exact (List.prefix_append_drop ( List.isPrefixOf_iff_prefix.mp starts))
    · obtain ⟨⟨_, _⟩, inner, same⟩ := map_eq_some_iff.mp found
      obtain ⟨rfl, rfl⟩ := mk.inj same
      rw [ih inner, List.cons_append]

theorem splitOnceAt_some_plain (nonempty : mark ≠ [])
    (found : splitOnceAt mark cs = some (before, after)) : ¬ mark <:+: before := by
  induction cs generalizing before with
  | nil =>
    rw [splitOnceAt] at found
    split at found
    · rename_i empty
      exact absurd (by simpa using empty) nonempty
    · cases found
  | cons _ _ ih =>
    rw [splitOnceAt] at found
    split at found
    · obtain ⟨rfl, rfl⟩ := mk.inj (some.inj found)
      simpa using nonempty
    · rename_i missing
      obtain ⟨⟨_, _⟩, inner, same⟩ := map_eq_some_iff.mp found
      obtain ⟨rfl, rfl⟩ := mk.inj same
      rw [List.infix_cons_iff]
      rintro (starts | later)
      · apply missing
        rw [splitOnceAt_eq inner, ← List.cons_append]
        exact List.isPrefixOf_iff_prefix.mpr (starts.trans (List.prefix_append _ _))
      · exact ih inner later

theorem splitOnceAt_none_plain (missing : splitOnceAt mark cs = none) : ¬ mark <:+: cs := by
  induction cs with
  | nil =>
    rw [splitOnceAt] at missing
    split at missing
    · cases missing
    · rename_i some
      simpa using some
  | cons _ _ ih =>
    rw [splitOnceAt] at missing
    split at missing
    · cases missing
    · rename_i apart
      rw [List.infix_cons_iff]
      rintro (starts | later)
      · exact apart ( List.isPrefixOf_iff_prefix.mpr starts)
      · exact ih (map_eq_none_iff.mp missing) later

end Splitting

section Cutting
open Piece

def Piece.Sound : Piece → Prop
  | .comment data => ¬ "-->".toList <:+: data.toList
  | .endTag _ => True
  | .startTag tag attributes selfClosing =>
    ReadableTag tag ∧ OrdinaryNames attributes ∧ (Element.isRawText tag = true → selfClosing = true)
  | .rawElement tag attributes body =>
    ReadableTag tag ∧ OrdinaryNames attributes ∧ Element.isRawText tag = true ∧ ¬ ("</" ++ tag).toList <:+: body.toList
  | .text data => data ≠ ""

theorem OrdinaryNames.addAttribute (ordinary : OrdinaryNames attrs) {name : String}
    (readable : ∀ c ∈ name.toList, isNameChar c) (value : String) :
    OrdinaryNames (addAttribute attrs name value) := by
  unfold Piece.addAttribute
  split
  · exact ordinary
  · rename_i fresh
    simp only [Bool.or_eq_true, String.isEmpty_iff, List.any_eq_true, beq_iff_eq, not_or, not_exists, not_and] at fresh
    refine ⟨fun entry mem => ?_, ?_⟩
    · rcases List.mem_append.mp mem with old | new
      · exact ordinary.readable entry old
      · obtain rfl := List.mem_singleton.mp new
        exact ⟨by simpa using fresh.1, readable⟩
    · rw [List.map_append, List.nodup_append]
      refine ⟨ordinary.once, by simp, ?_⟩
      rintro _ old _ new rfl
      obtain ⟨entry, mem, rfl⟩ := List.mem_map.mp old
      exact fresh.2 entry mem (by simpa using new)

theorem ordinaryNames_scanAttributes (ordinary : OrdinaryNames attrs) (cs : List Char) :
    OrdinaryNames (scanAttributes attrs cs).1 := by
  fun_induction scanAttributes attrs cs with
  | case1 => exact ordinary
  | case2 => exact ordinary
  | case3 => exact ordinary
  | case4 _ _ _ _ _ _ ih => exact ih ordinary
  | case5 _ _ _ _ _ _ _ _ _ ih =>
    refine ih (ordinary.addAttribute (fun d mem => ?_) _)
    rw [toList_ofList] at mem
    exact List.mem_takeWhile_imp mem

theorem rawBody_plain (cs : List Char) : ¬ ("</" ++ tag).toList <:+: (rawBody tag cs).1 := by
  have nonempty : ("</" ++ tag).toList ≠ [] := by simp
  unfold rawBody
  split
  · rename_i missing
    exact splitOnceAt_none_plain missing
  · rename_i body _ found
    dsimp only
    split <;> exact splitOnceAt_some_plain nonempty found

variable {c : Char}

theorem sound_scanStartTag (letter : c.isAlpha) (cs : List Char) : (scanStartTag (c :: cs)).1.Sound := by
  have tagChar : isTagChar c = true := isTagChar_of_isNameChar (isNameChar_of_isAlphanum (by simp [Char.isAlphanum, letter]))
  have name : ReadableTag (ofList ((c :: cs).takeWhile isTagChar)) := by
    refine ⟨⟨c, cs.takeWhile isTagChar, by simp [tagChar], letter⟩, fun d mem => ?_⟩
    rw [toList_ofList] at mem
    exact List.mem_takeWhile_imp mem
  have none : OrdinaryNames [] := ⟨by simp, by simp⟩
  have names := ordinaryNames_scanAttributes none ((c :: cs).dropWhile isTagChar)
  unfold scanStartTag
  split
  rename_i attrs selfClosing rest scanned
  rw [scanned] at names
  dsimp only
  split
  · rename_i raw
    rw [Bool.and_eq_true] at raw
    refine ⟨name, names, raw.2, ?_⟩
    rw [toList_ofList]
    exact rawBody_plain rest
  · rename_i other
    refine ⟨name, names, fun raw => ?_⟩
    simpa [raw] using other

theorem upToClose_plain (cs : List Char) : ¬ "-->".toList <:+: (upToClose cs).1 := by
  intro mem
  have close : '>' ∈ (upToClose cs).1 := mem.subset (by decide)
  simpa using List.mem_takeWhile_imp close

theorem decode_ne_nil (c : Char) (cs : List Char) : Entity.decode (c :: cs) ≠ [] := by
  rw [Entity.decode]
  split
  · split <;> simp
  · simp

theorem sound_next {cs rest : List Char} (found : next? c cs = some (piece, rest)) : piece.Sound := by
  unfold next? at found
  split at found
  · rename_i body
    have nonempty : "-->".toList ≠ [] := by decide
    split at found
    · rename_i data _ split
      obtain ⟨rfl, _⟩ := mk.inj (some.inj found)
      simpa [Sound] using splitOnceAt_some_plain nonempty split
    · rename_i missing
      obtain ⟨rfl, _⟩ := mk.inj (some.inj found)
      simpa [Sound] using splitOnceAt_none_plain missing
  · obtain ⟨rfl, _⟩ := mk.inj (some.inj found)
    simpa [Sound] using upToClose_plain _
  · obtain ⟨rfl, _⟩ := mk.inj (some.inj found)
    simpa [Sound] using upToClose_plain _
  · obtain ⟨rfl, _⟩ := mk.inj (some.inj found)
    trivial
  · split at found
    · rename_i letter
      rw [Bool.and_eq_true] at letter
      cases cs with
      | nil => simp at letter
      | cons _ cs =>
        rw [some.injEq] at found
        have sound := sound_scanStartTag (by simpa using letter.2) cs
        rwa [found] at sound
    · split at found
      · obtain ⟨rfl, _⟩ := mk.inj (some.inj found)
        simpa [Sound] using decode_ne_nil _ _
      · cases found

theorem sound_scan (cs : List Char) : ∀ piece ∈ (scan cs).1, piece.Sound := by
  fun_induction scan cs with
  | case1 => simp
  | case2 => simp
  | case3 _ _ _ _ found _ _ scanned ih =>
    rw [scanned] at ih
    intro other mem
    rcases List.mem_cons.mp mem with rfl | later
    · exact sound_next found
    · exact ih other later

end Cutting

section Nesting
open OpenElements
variable {state : OpenElements}

def SoundFrames : List Frame → Prop
  | [] => True
  | frame :: frames =>
    frame.svg = ((frames.head?.map Frame.svg).getD false || frame.tag == "svg") ∧ ReadableTag frame.tag ∧
      OrdinaryNames frame.attributes ∧ Tree.isVoid frame.tag frame.svg = false ∧ Element.isRawText frame.tag = false ∧
      (∀ tree ∈ frame.children, tree.Expressible OrdinaryNames frame.svg) ∧ SoundFrames frames

structure OpenElements.Sound (state : OpenElements) : Prop where
  frames : SoundFrames state.frames
  roots : ∀ tree ∈ state.roots, tree.Expressible OrdinaryNames false

theorem OpenElements.Sound.add (sound : state.Sound) {tree : Tree} (expressible : tree.Expressible OrdinaryNames state.inSvg) :
    (state.add tree).Sound := by
  obtain ⟨frames, _⟩ := state
  cases frames with
  | nil => exact ⟨trivial, List.forall_mem_cons.mpr ⟨expressible, sound.roots⟩⟩
  | cons =>
    obtain ⟨svg, name, names, void, raw, children, below⟩ := sound.frames
    exact ⟨⟨svg, name, names, void, raw, List.forall_mem_cons.mpr ⟨expressible, children⟩, below⟩, sound.roots⟩

theorem OpenElements.Sound.closeInnermost (sound : state.Sound) : state.closeInnermost.Sound := by
  obtain ⟨frames, roots⟩ := state
  cases frames with
  | nil => exact sound
  | cons _ frames =>
    obtain ⟨svg, name, names, void, raw, children, below⟩ := sound.frames
    have rest : Sound ⟨frames, roots⟩ := ⟨below, sound.roots⟩
    refine rest.add ⟨svg, name, names, by simp [void], by simp [raw], fun _ => ?_⟩
    exact Tree.expressibleAll_iff.mpr fun tree mem => children tree (by simpa using mem)

theorem OpenElements.Sound.closeMany (sound : state.Sound) (count : Nat) : (closeMany count state).Sound := by
  induction count generalizing state with
  | zero => exact sound
  | succ _ ih => exact ih sound.closeInnermost

theorem OpenElements.Sound.step {state : OpenElements} (sound : state.Sound) (fit : piece.Sound) :
    (state.step piece).Sound := by
  match piece with
  | .comment _ => exact sound.add fit
  | .text _ => exact sound.add fit
  | .endTag _ =>
    rw [OpenElements.step, close]
    split
    · exact sound.closeMany _
    · exact sound
  | .rawElement _ _ body =>
    obtain ⟨name, names, raw, plain⟩ := fit
    refine sound.add ⟨?_, name, names, ?_, fun _ => ?_, by simp [raw]⟩
    · simp only [Element.isRawText, Bool.or_eq_true, beq_iff_eq] at raw
      rcases raw with rfl | rfl <;> simp
    · simp [Tree.isVoid_of_isRawText raw]
    · split
      · exact .inl rfl
      · rename_i some
        exact .inr ⟨body, rfl, by simpa using some, plain⟩
  | .startTag _ _ _ =>
    obtain ⟨name, names, raw⟩ := fit
    rw [OpenElements.step]
    split
    · exact sound.add ⟨rfl, name, names, fun _ => rfl, fun _ => .inl rfl, fun _ => trivial⟩
    · rename_i other
      simp only [Bool.or_eq_true, not_or, Bool.not_eq_true] at other
      refine ⟨⟨rfl, name, names, other.2, ?_, by simp, sound.frames⟩, sound.roots⟩
      rw [Bool.eq_false_iff]
      intro isRaw
      simp [raw isRaw] at other

theorem expressible_read (markup : String) : Tree.ExpressibleAll OrdinaryNames false (read markup).forest := by
  have steps : ∀ (pieces : List Piece) (state : OpenElements), (∀ piece ∈ pieces, piece.Sound) → state.Sound →
      (pieces.foldl OpenElements.step state).Sound := by
    intro pieces
    induction pieces with
    | nil => exact fun _ _ sound => sound
    | cons piece _ ih =>
      intro state fits sound
      exact ih _ (fun other later => fits other (List.mem_cons_of_mem piece later)) (sound.step (fits piece (by simp)))
  have ended := steps _ .start (sound_scan markup.toList) ⟨trivial, by simp [start]⟩
  have closed := ended.closeMany (((Piece.scan markup.toList).1.foldl OpenElements.step .start).frames.length)
  refine Tree.expressibleAll_iff.mpr fun tree mem => closed.roots tree ?_
  simpa [read, finish] using mem

end Nesting

end LiveMarkup.Markup
