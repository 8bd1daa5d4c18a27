import LiveMarkup.Proofs.CardMarkup
import LiveMarkup.Proofs.Templates

/-!
Templates in a world with cards. They are read when they are first needed, and their nodes are kept: nothing that
happens to cards changes them.
-/

namespace LiveMarkup.Card
open Document Live Markup Reactive Program

abbrev CardWorld := World Code Templates

abbrev CardGraph := Graph (Procedure Code) Datum

variable {level : Nat} {graph : CardGraph} {world world' : CardWorld} {kept : NodeId → Prop}

section Worlds

variable {spent : List ClaimId} {α : Type} {i : Nat} {array : Array α} {value : α}

/-- What is beside the document is as it was, but for the changed regions, the spent claims and what came anew: regions,
claims and templates. -/
structure Beside (world world' : CardWorld) (changed : List RegionId) (spent : List ClaimId) : Prop where
  frames_eq : world'.frames = world.frames
  regions : ∀ id ∉ changed, ∀ mounted, world.regions[id]? = some mounted → world'.regions[id]? = some mounted
  claims : ∀ id ∉ spent, ∀ claim, world.claims[id]? = some claim → world'.claims[id]? = some claim
  templates : ∀ shape root, world.host.root shape = some root → world'.host.root shape = some root

section

variable {first second third : CardWorld} {changed : List RegionId} {spent : List ClaimId}

theorem Beside.refl (world : CardWorld) (changed : List RegionId) (spent : List ClaimId) :
    Beside world world changed spent :=
  ⟨rfl, fun _ _ _ found => found, fun _ _ _ found => found, fun _ _ found => found⟩

theorem Beside.trans (one : Beside first second changed spent) (two : Beside second third changed spent) :
    Beside first third changed spent where
  frames_eq := two.frames_eq.trans one.frames_eq
  regions id apart mounted found := two.regions id apart mounted (one.regions id apart mounted found)
  claims id apart claim found := two.claims id apart claim (one.claims id apart claim found)
  templates shape root found := two.templates shape root (one.templates shape root found)

theorem Beside.mono (beside : Beside first second changed spent) {more : List RegionId} {others : List ClaimId}
    (regions : changed ⊆ more := by simp) (claims : spent ⊆ others := by simp) : Beside first second more others :=
  ⟨beside.frames_eq, fun id apart => beside.regions id fun mem => apart (regions mem),
    fun id apart => beside.claims id fun mem => apart (claims mem), beside.templates⟩

theorem Beside.trans_new (one : Beside first second [] [])
    (two : Beside second third [first.regions.size] [first.claims.size]) : Beside first third [] [] where
  frames_eq := two.frames_eq.trans one.frames_eq
  regions id apart mounted found := by
    have bound := (Array.getElem?_eq_some_iff.mp found).1
    exact two.regions id (by simpa using bound.ne) mounted (one.regions id apart mounted found)
  claims id apart claim found := by
    have bound := (Array.getElem?_eq_some_iff.mp found).1
    exact two.claims id (by simpa using bound.ne) claim (one.claims id apart claim found)
  templates shape root found := two.templates shape root (one.templates shape root found)

theorem Beside.isHydrating (beside : Beside first second changed spent) : second.isHydrating = first.isHydrating := by
  rw [World.isHydrating, World.isHydrating, beside.frames_eq]

theorem Beside.inFrame {frame : Live.Frame}
    (beside : Beside { first with frames := frame :: first.frames } second changed spent) :
    Beside first { second with frames := second.frames.drop 1 } changed spent :=
  { beside with frames_eq := by simp [beside.frames_eq] }

end

theorem getElem?_push_of_some {new : α} (found : array[i]? = some value) : (array.push new)[i]? = some value := by
  have bound := (Array.getElem?_eq_some_iff.mp found).1
  rw [Array.getElem?_push, if_neg bound.ne, found]

theorem getElem?_modify_of_not_mem {f : α → α} {j : Nat} (apart : i ∉ [j]) (found : array[i]? = some value) :
    (array.modify j f)[i]? = some value := by
  have differs : j ≠ i := fun same => apart (by simp [same])
  rw [Array.getElem?_modify, if_neg differs, found]

theorem beside_mounted (world : CardWorld) (region : Region) (pending : Option ClaimId) :
    Beside world (world.mounted region pending) [] [] :=
  { Beside.refl world [] [] with regions := fun _ _ _ found => getElem?_push_of_some found }

theorem beside_claiming (world : CardWorld) (claim : Claim) : Beside world (world.claiming claim) [] [] :=
  { Beside.refl world [] [] with claims := fun _ _ _ found => getElem?_push_of_some found }

theorem beside_taken (world : CardWorld) (id : RegionId) : Beside world (world.taken id) [id] spent :=
  { Beside.refl world [id] spent with regions := fun _ apart _ found => getElem?_modify_of_not_mem apart found }

theorem beside_updated (world : CardWorld) (id : RegionId) (region : Region) (items : List Item) :
    Beside world (world.updated id region items) [id] spent :=
  { Beside.refl world [id] spent with regions := fun _ apart _ found => getElem?_modify_of_not_mem apart found }

theorem beside_adopted (world : CardWorld) (id : RegionId) (region : Region) (items : List Item) (claim : Claim) :
    Beside world (world.adopted id region items claim) [id] spent :=
  { Beside.refl world [id] spent with regions := fun _ apart _ found => getElem?_modify_of_not_mem apart found }

end Worlds

def Shape.tree : Shape → Tree
  | .card => frameTree false [] [] "" "" []
  | .item => itemTree false ""

/-- The nodes that are kept are in the document, and those of the templates are among them. -/
structure Hosted (world : CardWorld) (kept : NodeId → Prop) : Prop where
  small : ∀ m, kept m → m < world.document.nodes.size
  shows : ∀ shape root, world.host.root shape = some root → world.document.Shows kept none shape.tree root

structure Prepared (world world' : CardWorld) (kept kept' : NodeId → Prop) : Prop where
  hosted : Hosted world' kept'
  wider : ∀ m, kept m → kept' m
  older : ∀ m < world.document.nodes.size, kept' m → kept m
  extended : Extended world.document world'.document
  rest : world' = { world with document := world'.document, host := world'.host }

theorem Prepared.refl (hosted : Hosted world kept) : Prepared world world kept kept :=
  ⟨hosted, fun _ => id, fun _ _ => id, .refl _, rfl⟩

theorem Shape.read_markup (shape : Shape) : Markup.read shape.markup = ⟨[shape.tree], true⟩ := by
  have none : OrdinaryNames [] := ⟨by simp, by simp⟩
  have empty : Legible "" := by simp [Legible]
  cases shape with
  | card =>
    exact Markup.read_written Entity.escaping_allMarks (by decide) (by decide)
      (readable_frameTree none none empty empty (by simp)) rfl
  | item =>
    have readable : Tree.ReadableAll OrdinaryNames false [Shape.tree .item] :=
      ⟨readable_element (by decide : OrdinaryTag "li") none trivial, by simp, trivial⟩
    exact Markup.read_written Entity.escaping_allMarks (by decide) (by decide) readable rfl

theorem tag?_of_shows {doc : CardDocument} {tag : String} {closed : Bool} {attrs : Attributes} {children : List Tree}
    {parent : Option NodeId} {root : NodeId} (shows : doc.Shows kept parent (.element tag closed attrs children) root) :
    doc.tag? root = some tag := by
  obtain ⟨_, _, found, _⟩ := shows
  exact tag?_of_node? found

def keptWith (kept : NodeId → Prop) (first last : Nat) (m : NodeId) : Prop := kept m ∨ first < m ∧ m < last

theorem Hosted.prepared (hosted : Hosted world kept) {next : CardDocument} (extended : Extended world.document next)
    {templates : Templates} (shows : ∀ shape root, templates.root shape = some root → world.host.root shape = some root ∨
      next.Shows (fun m => world.document.nodes.size < m ∧ m < next.nodes.size) none shape.tree root) :
    Prepared world { world with document := next, host := templates } kept
      (keptWith kept world.document.nodes.size next.nodes.size) := by
  refine ⟨⟨?_, ?_⟩, fun m => .inl, ?_, extended, rfl⟩
  · rintro m (old | new)
    · exact (hosted.small m old).trans_le extended.size_le
    · exact new.2
  · intro shape root found
    rcases shows shape root found with old | new
    · exact (hosted.shows shape root old).frame (fun m h => extended.node?_eq m (hosted.small m h)) fun m => .inl
    · exact new.frame (fun _ _ => rfl) fun m => .inr
  · rintro _ bound (old | new)
    · exact old
    · exact absurd bound (Nat.lt_asymm new.1)

theorem ensures_template (shape : Shape) (hosted : Hosted world kept) :
    (template shape).Ensures (Procedure.meaning host) level graph world fun root graph' world' => graph' = graph ∧
      world'.host.root shape = some root ∧ Beside world world' [] [] ∧
      ((world.host.root shape).isSome → world' = world) ∧ ∃ kept', Prepared world world' kept kept' := by
  refine seeing_then ?_
  cases found : world.host.root shape with
  | some => exact ensures_pure ⟨rfl, found, .refl world [] [], fun _ => rfl, kept, .refl hosted⟩
  | none =>
    refine (ensures_newTemplate shape.read_markup).bind ?_
    rintro _ _ middle ⟨rfl, extended, shows, same⟩
    refine altering_then (ensures_pure ⟨rfl, if_pos rfl, ?_, by simp,
      keptWith kept world.document.nodes.size middle.document.nodes.size, ?_⟩)
    · rw [same]
      refine { Beside.refl world [] [] with templates := fun other root old => (if_neg ?_).trans old }
      rintro rfl
      simp [found] at old
    · rw [same]
      refine hosted.prepared extended fun other root kept => ?_
      by_cases same : other = shape
      · subst same
        obtain rfl := Option.some.inj ((if_pos rfl).symm.trans kept)
        exact .inr shows
      · exact .inl ((if_neg same).symm.trans kept)

theorem beside_advanced (world : CardWorld) (id : ClaimId) (claim : Claim) :
    Beside world (advanced world id claim) [] [id] :=
  { Beside.refl world [] [id] with claims := fun _ apart _ found => getElem?_modify_of_not_mem apart found }

end LiveMarkup.Card
