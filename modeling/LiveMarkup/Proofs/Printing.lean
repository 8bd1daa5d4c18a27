import LiveMarkup.Proofs.CodeUnits
import LiveMarkup.Proofs.Places
import LiveMarkup.Proofs.Scanning

/-!
Printing templates. A tree is printed with the special characters and the line breaks of its texts as character
references. Reading what is printed gives the tree again, with the spans that its constructs have in the printed text.
-/

namespace LiveMarkup.Template
open Text Markup List Grammar Entity Option Position
open String hiding append_assoc length_append data

section Code

variable {cs : List Char}

/-- Code whose literals are complete and whose braces match. No other `r` stands directly in front of a string or a hash. -/
inductive IsCode : List Char → Prop
  | nil : IsCode []
  | string {body rest : List Char} (complete : IsStringBody body) (behind : IsCode rest) :
      IsCode ('"' :: (body ++ '"' :: rest))
  | raw {hashes : Nat} {body rest : List Char} (complete : ¬ rawQuote hashes <:+: body) (behind : IsCode rest) :
      IsCode ('r' :: (List.replicate hashes '#' ++ '"' :: (body ++ (rawQuote hashes ++ rest))))
  | char {body rest : List Char} (complete : IsCharBody body) (behind : IsCode rest) :
      IsCode ('\'' :: (body ++ '\'' :: rest))
  | group {inner rest : List Char} (balanced : IsCode inner) (behind : IsCode rest) :
      IsCode ('\x7b' :: (inner ++ '\x7d' :: rest))
  | other {c : Char} {rest : List Char} (plain : c ∉ ['"', '\'', '\x7b', '\x7d'])
      (apart : c = 'r' → rest.head? ≠ some '"' ∧ rest.head? ≠ some '#') (behind : IsCode rest) : IsCode (c :: rest)

/-- Code that an expression can hold: it is trimmed and more than comments. -/
structure IsEmbedded (code : String) : Prop where
  complete : IsCode code.toList
  trimmed : trimCode code = code
  solid : isCommentOnly code.toList = false

theorem IsCode.passedOver (code : IsCode cs) (behind : List Char) : PassedOver cs ('\x7d' :: behind) := by
  induction code generalizing behind with
  | nil => exact .nil
  | string complete _ ih => exact .string complete (ih behind)
  | raw complete _ ih => exact .raw complete (ih behind)
  | char complete _ ih => exact .char complete (ih behind)
  | @group _ rest _ _ within ih =>
    exact .group (within (rest ++ '\x7d' :: behind)) (ih behind)
  | @other _ rest plain apart _ ih =>
    refine .plain plain (fun letter => ?_) (ih behind)
    rintro ⟨hashes, _, opens⟩
    cases rest with
    | nil => cases hashes <;> cases opens
    | cons =>
      have first := apart letter
      cases hashes with
      | zero => exact first.1 (congrArg some (cons.inj opens).1)
      | succ => exact first.2 (congrArg some (cons.inj opens).1)

theorem IsCode.closed (code : IsCode cs) (behind : List Char) : Code.IsClosed cs behind := by
  rw [Code.IsClosed, Code.lengthToClose?_passedOver (code.passedOver behind), Code.lengthToClose?.eq_def]
  simp

end Code

/-- How a character of a text is printed: special characters and line breaks are references. -/
def printedChar : Char → List Char
  | '&' => "&#38;".toList
  | '<' => "&#60;".toList
  | '\x7b' => "&#123;".toList
  | '\x7d' => "&#125;".toList
  | '"' => "&#34;".toList
  | '\'' => "&#39;".toList
  | '\n' => "&#10;".toList
  | '\r' => "&#13;".toList
  | c => [c]

def printedText (data : String) : List Char := data.toList.flatMap printedChar

def Attribute.printed : Attribute → List Char
  | .named name none _ => name.toList
  | .named name (some (.literal text)) _ => name.toList ++ ('=' :: '"' :: (printedText text ++ ['"']))
  | .named name (some (.expression code)) _ => name.toList ++ '=' :: braced code
  | .spread code _ => '\x7b' :: '.' :: '.' :: '.' :: (code.toList ++ ['\x7d'])

def printedAttributes (attributes : List Attribute) : List Char := attributes.flatMap fun entry => ' ' :: entry.printed

mutual

def Tree.printed : Tree → List Char
  | .element tag attributes children selfClosing _ =>
    '<' :: (tag.toList ++ (printedAttributes attributes ++
      if selfClosing then ['/', '>'] else '>' :: (printedAll children ++ '<' :: '/' :: (tag.toList ++ ['>']))))
  | .fragment children _ => '<' :: '>' :: (printedAll children ++ ['<', '/', '>'])
  | .text data _ => printedText data
  | .expression code _ => braced code

def Tree.printedAll : List Tree → List Char
  | [] => []
  | tree :: rest => tree.printed ++ printedAll rest

end

def spanOf (p : Position) (text : List Char) : Span := ⟨p, (p.pastAll text).offset⟩

def Attribute.located (p : Position) (entry : Attribute) : Attribute :=
  match entry with
  | .named name value _ => .named name value (spanOf p entry.printed)
  | .spread code _ => .spread code (spanOf p entry.printed)

def locatedAttributes (p : Position) : List Attribute → List Attribute
  | [] => []
  | entry :: rest => entry.located (p.past ' ') :: locatedAttributes (p.pastAll (' ' :: entry.printed)) rest

mutual

/-- A tree with the spans that it has when it is printed at a position: each covers what is printed of its construct. -/
def Tree.located (p : Position) : Tree → Tree
  | .element tag attributes children selfClosing span =>
    let inside := p.pastAll ('<' :: tag.toList)
    let behind := inside.pastAll (printedAttributes attributes ++ ['>'])
    .element tag (locatedAttributes inside attributes) (locatedAll behind children) selfClosing
      (spanOf p (Tree.printed (.element tag attributes children selfClosing span)))
  | .fragment children span =>
    .fragment (locatedAll (p.pastAll ['<', '>']) children) (spanOf p (Tree.printed (.fragment children span)))
  | .text data _ => .text data (spanOf p (printedText data))
  | .expression code _ => .expression code (spanOf p (braced code))

def Tree.locatedAll (p : Position) : List Tree → List Tree
  | [] => []
  | tree :: rest => tree.located p :: locatedAll (p.pastAll tree.printed) rest

end

def Attribute.bare : Attribute → Attribute
  | .named name value _ => .named name value default
  | .spread code _ => .spread code default

mutual

def Tree.bare : Tree → Tree
  | .element tag attributes children selfClosing _ =>
    .element tag (attributes.map Attribute.bare) (bareAll children) selfClosing default
  | .fragment children _ => .fragment (bareAll children) default
  | .text data _ => .text data default
  | .expression code _ => .expression code default

def Tree.bareAll : List Tree → List Tree
  | [] => []
  | tree :: rest => tree.bare :: bareAll rest

end

def Tree.isText : Tree → Bool
  | .text _ _ => true
  | _ => false

def Attribute.Printable : Attribute → Prop
  | .named name none _ => IsName name
  | .named name (some (.literal _)) _ => IsName name
  | .named name (some (.expression code)) _ => IsName name ∧ IsEmbedded code
  | .spread code _ => IsEmbedded code

mutual

def Tree.Printable : Tree → Prop
  | .element tag attributes children selfClosing _ =>
    IsName tag ∧ (∀ entry ∈ attributes, entry.Printable) ∧ (selfClosing = true → children = []) ∧ PrintableAll children
  | .fragment children _ => PrintableAll children
  | .text data _ => data ≠ ""
  | .expression code _ => IsEmbedded code

def Tree.PrintableAll : List Tree → Prop
  | [] => True
  | tree :: rest => tree.Printable ∧ (tree.isText = true → ∀ next ∈ rest.head?, next.isText = false) ∧ PrintableAll rest

end

/-- Roots that are printed as they are: no text is blank, and none has blanks at the outer edges. -/
structure ArePrintable (roots : List Tree) : Prop where
  all : Tree.PrintableAll roots
  shown : ∀ root ∈ roots, root.isBlankText = false
  starts : ∀ data span, roots.head? = some (.text data span) → trimmedStart data = data
  ends : ∀ data span, roots.getLast? = some (.text data span) → trimmedEnd data = data

section Texts

variable {data : String} {c : Char}

def isPrintedChar (c : Char) : Bool := Grammar.isTextChar c && c != '"' && c != '\n'

theorem printedChar_plain {d : Char} (mem : d ∈ printedChar c) : isPrintedChar d = true := by
  unfold printedChar at mem
  split at mem
  case h_9 ampersand opening brace close double single feed _ =>
    obtain rfl := mem_singleton.mp mem
    simp only [isPrintedChar, isTextChar, Bool.and_eq_true, bne_iff_ne]
    exact ⟨⟨⟨⟨opening, brace⟩, close⟩, double⟩, feed⟩
  all_goals exact all_eq_true.mp (by decide) d mem

theorem decode_printedChar (c : Char) (rest : List Char) : decode (printedChar c ++ rest) = c :: decode rest := by
  have reference (name : List Char) (d : Char) (closed : name.all (· ≠ ';')) (short : name.length ≤ longestName)
      (known : named? name = some d) : decode ('&' :: (name ++ ';' :: rest)) = d :: decode rest :=
    decode_ampersand (reference?_name name (by simpa using closed) short known rest)
  unfold printedChar
  split
  case h_1 => exact reference "#38".toList _ (by decide) (by decide) (by decide)
  case h_2 => exact reference "#60".toList _ (by decide) (by decide) (by decide)
  case h_3 => exact reference "#123".toList _ (by decide) (by decide) (by decide)
  case h_4 => exact reference "#125".toList _ (by decide) (by decide) (by decide)
  case h_5 => exact reference "#34".toList _ (by decide) (by decide) (by decide)
  case h_6 => exact reference "#39".toList _ (by decide) (by decide) (by decide)
  case h_7 => exact reference "#10".toList _ (by decide) (by decide) (by decide)
  case h_8 => exact reference "#13".toList _ (by decide) (by decide) (by decide)
  case h_9 ampersand _ _ _ _ _ _ _ => exact decode_cons_of_ne ampersand rest

theorem decode_printed (data : List Char) : decode (data.flatMap printedChar) = data := by
  induction data with
  | nil => rw [flatMap_nil, decode]
  | cons _ _ ih => rw [flatMap_cons, decode_printedChar, ih]

theorem printedText_ne_nil (solid : data ≠ "") : printedText data ≠ [] := by
  intro nothing
  have read := decode_printed data.toList
  rw [show data.toList.flatMap printedChar = [] from nothing, decode] at read
  exact solid (toList_eq_nil_iff.mp read.symm)

theorem printedText_plain (mem : c ∈ printedText data) : isPrintedChar c = true := by
  obtain ⟨_, -, mem⟩ := mem_flatMap.mp mem
  exact printedChar_plain mem

end Texts

namespace Parser

variable {α β : Type} {p : Position} {text more rest : List Char} {a : α} {b : β}

def Takes (parser : Parser α) (p : Position) (text rest : List Char) (a : α) : Prop :=
  ∀ attempts, (parser ⟨p, text ++ rest⟩ attempts).1 = some (a, ⟨p.pastAll text, rest⟩)

def Refuses (parser : Parser α) (rest : List Char) : Prop := ∀ p attempts, (parser ⟨p, rest⟩ attempts).1 = none

section Logic

variable {first second : Parser α} {next : α → Parser β} {body : Parser α}

theorem takes_pure : Takes (pure a) p [] rest a := fun _ => rfl

theorem Takes.bind (one : Takes first p text (more ++ rest) a) (two : Takes (next a) (p.pastAll text) more rest b) :
    Takes (first >>= next) p (text ++ more) rest b := by
  intro attempts
  have taken := one attempts
  rw [bind_apply, append_assoc]
  split
  · rename_i value cursor later found
    rw [found] at taken
    obtain ⟨rfl, rfl⟩ := Prod.mk.inj (some.inj taken)
    rw [pastAll_append]
    exact two later
  · rename_i later found
    rw [found] at taken
    cases taken

theorem Takes.look (one : Takes first p [] (text ++ rest) a) (two : Takes (next a) p text rest b) :
    Takes (first >>= next) p text rest b := Takes.bind one two

theorem Takes.give (one : Takes first p text rest a) (two : Takes (next a) (p.pastAll text) [] rest b) :
    Takes (first >>= next) p text rest b := by
  have both : Takes (first >>= next) p (text ++ []) rest b := Takes.bind one two
  rwa [append_nil] at both

theorem Takes.left (one : Takes first p text rest a) : Takes (first <|> second) p text rest a := by
  intro attempts
  have taken := one attempts
  rw [orElse_apply]
  split
  · rename_i result later found
    rwa [found] at taken
  · rename_i later found
    rw [found] at taken
    cases taken

theorem Takes.right (one : Refuses first (text ++ rest)) (two : Takes second p text rest a) :
    Takes (first <|> second) p text rest a := by
  intro attempts
  have refused := one p attempts
  rw [orElse_apply]
  split
  · rename_i result later found
    rw [found] at refused
    cases refused
  · exact two _

theorem Takes.construct (taken : Takes body p text rest a) (name : Construct) : Takes (construct name body) p text rest a := by
  intro attempts
  rw [construct_result]
  exact taken attempts

theorem refuses_failure : Refuses (failure : Parser α) rest := fun _ _ => rfl

theorem Refuses.construct (refused : Refuses body rest) (name : Construct) :
    Refuses (construct name body) rest := fun p attempts => (construct_result ..).trans (refused p attempts)

theorem Refuses.bind (refused : Refuses first rest) : Refuses (first >>= next) rest := by
  intro p attempts
  have refused := refused p attempts
  rw [bind_apply]
  split
  · rename_i value cursor later found
    rw [found] at refused
    cases refused
  · rfl

theorem Takes.refuses (one : ∀ p, ∃ a, Takes first p text rest a ∧ Refuses (next a) rest) :
    Refuses (first >>= next) (text ++ rest) := by
  intro p attempts
  obtain ⟨_, taken, refused⟩ := one p
  have taken := taken attempts
  rw [bind_apply]
  split
  · rename_i value cursor later found
    rw [found] at taken
    obtain ⟨rfl, rfl⟩ := Prod.mk.inj (some.inj taken)
    exact refused _ later
  · rfl

theorem Refuses.orElse (one : Refuses first rest) (two : Refuses second rest) : Refuses (first <|> second) rest := by
  intro p attempts
  have refused := one p attempts
  rw [orElse_apply]
  split
  · rename_i result later found
    rw [found] at refused
    cases refused
  · exact two p _

end Logic

theorem takes_get : Takes get p [] rest ⟨p, rest⟩ := fun _ => rfl

theorem takes_position : Takes position p [] rest p := fun _ => rfl

theorem takes_rest : Takes Parser.rest p [] rest rest := fun _ => rfl

theorem takes_takeChars (text rest : List Char) : Takes (takeChars text.length) p text rest (ofList text) := by
  intro attempts
  have taken : (takeChars text.length ⟨p, text ++ rest⟩ attempts).1 =
      some (ofList ((text ++ rest).take text.length), Cursor.skip ⟨p, text ++ rest⟩ text.length) := rfl
  rw [taken, Cursor.skip, take_left, drop_left]

theorem Takes.discard {parser : Parser α} (taken : Takes parser p text rest a) : Takes (discard parser) p text rest () := by
  rw [discard_eq_bind]
  exact taken.give takes_pure

theorem takes_literal (text : String) (rest : List Char) : Takes (literal text) p text.toList rest () := by
  refine takes_rest.look ?_
  rw [if_pos ( isPrefixOf_iff_prefix.mpr (prefix_append _ _))]
  exact (takes_takeChars _ _).discard

theorem refuses_literal {text : String} (other : ¬ text.toList <+: rest) : Refuses (literal text) rest := by
  show Refuses (literal text) ([] ++ rest)
  refine Takes.refuses fun p => ⟨rest, takes_rest, ?_⟩
  rw [if_neg fun begins => other ( isPrefixOf_iff_prefix.mp begins)]
  exact refuses_failure

theorem takes_whileChars {q : Char → Bool} (all : ∀ c ∈ text, q c = true) (stop : ∀ c ∈ rest.head?, q c = false) :
    Takes (whileChars q) p text rest (ofList text) := by
  refine takes_rest.look ?_
  rw [(takeWhile_append_of_stop all rest stop).1]
  exact takes_takeChars text rest

theorem takes_spaces (gap : ∀ c ∈ text, isSpace c = true) (stop : ∀ c ∈ rest.head?, isSpace c = false) :
    Takes spaces p text rest () :=
  (takes_whileChars gap stop).discard

theorem takes_name {tag : String} (named : IsName tag) (stop : ∀ c ∈ rest.head?, isNamePart c = false) :
    Takes name p tag.toList rest tag := by
  obtain ⟨c, cs, text, start⟩ := named.starts
  have parts : Takes (whileChars isNamePart) p tag.toList rest (ofList tag.toList) :=
    takes_whileChars named.parts stop
  rw [ofList_toList, text] at parts
  rw [text]
  refine takes_rest.look ?_
  show Takes (if isNameStart c = true then whileChars isNamePart else failure) p (c :: cs) rest tag
  rw [if_pos start]
  exact parts

theorem refuses_name (other : ∀ c ∈ rest.head?, isNameStart c = false) : Refuses name rest := by
  show Refuses name ([] ++ rest)
  refine Takes.refuses fun p => ⟨rest, takes_rest, ?_⟩
  cases rest with
  | nil => exact refuses_failure
  | cons c cs =>
    show Refuses (if isNameStart c = true then whileChars isNamePart else failure) (c :: cs)
    rw [if_neg (by simp [other c rfl])]
    exact refuses_failure

theorem takes_codeToClose {code : String} (closed : Code.IsClosed code.toList rest) :
    Takes codeToClose p (code.toList ++ ['\x7d']) rest code := by
  refine takes_rest.look ?_
  rw [append_assoc, singleton_append, closed]
  have front := takes_takeChars (p := p) code.toList ('\x7d' :: rest)
  rw [ofList_toList] at front
  exact front.bind ((takes_takeChars ['\x7d'] rest).discard.give takes_pure)

end Parser

variable {trees : List Tree}

section Grammar
open Template.Parser

variable {p : Position} {rest : List Char} {span : Span} {code : String}
variable {attrs : List Attribute} {value : List Char} {entry : Attribute} {name : String}

/-- What stands behind an attribute in a tag: a blank and another attribute, or the end of the tag. -/
def EndsAttribute (rest : List Char) : Prop :=
  (∀ c ∈ rest.head?, isNamePart c = false) ∧ ∀ c ∈ (rest.dropWhile isSpace).head?, c ≠ '='

theorem takes_attributeString (data : String) :
    Takes attributeString p ('"' :: (printedText data ++ ['"'])) rest (ofList (printedText data)) := by
  refine Takes.construct (takes_rest.look ?_) _
  show Takes (literal "\"" >>= fun _ => whileChars (· ≠ '"') >>= fun text => literal "\"" >>= fun _ => pure text) p
    (['"'] ++ (printedText data ++ ['"'])) rest _
  refine (takes_literal "\"" _).bind ((takes_whileChars (fun c mem => ?_) (by simp)).bind
    ((takes_literal "\"" _).give takes_pure))
  have plain := printedText_plain mem
  simp only [isPrintedChar, Bool.and_eq_true, bne_iff_ne] at plain
  simpa using plain.1.2

theorem refuses_attributeValue (ends : EndsAttribute rest) : Refuses attributeValue rest := by
  have gap : ∀ c ∈ rest.takeWhile isSpace, isSpace c = true := fun c => all_eq_true.mp all_takeWhile c
  have stop : ∀ c ∈ (rest.dropWhile isSpace).head?, isSpace c = false := by
    intro c next
    have first := head?_dropWhile_not isSpace rest
    rw [mem_def] at next
    rw [next] at first
    simpa using first
  rw [← takeWhile_append_dropWhile (p := isSpace) (l := rest)]
  refine Takes.refuses fun p => ⟨(), takes_spaces gap stop, (refuses_literal ?_).bind⟩
  intro begins
  obtain ⟨_, whole⟩ := begins
  exact ends.2 '=' (by rw [← whole]; rfl) rfl

theorem takes_attributeExpression (embedded : IsEmbedded code) :
    Takes attributeExpression p (braced code) rest code := by
  refine Takes.construct ?_ _
  exact Takes.bind (takes_literal "\x7b" _) (takes_codeToClose (embedded.complete.closed rest))

theorem takes_quotedValue (data : String) : Takes attributeValue p ('=' :: '"' :: (printedText data ++ ['"'])) rest
      fun name span => .quoted name (ofList (printedText data)) span := by
  refine (takes_spaces (by simp) (by simp [isSpace])).look ?_
  show Takes _ p (['='] ++ '"' :: (printedText data ++ ['"'])) rest _
  refine Takes.bind (takes_literal "=" _) ?_
  refine (takes_spaces (by simp) (by simp [isSpace])).look ?_
  exact Takes.left ((takes_attributeString data).give takes_pure)

theorem takes_bracedValue (embedded : IsEmbedded code) :
    Takes attributeValue p ('=' :: braced code) rest fun name span => .braced name code span := by
  refine (takes_spaces (by simp) (by simp [isSpace])).look ?_
  show Takes _ p (['='] ++ braced code) rest _
  refine Takes.bind (takes_literal "=" _) ?_
  refine (takes_spaces (by simp) (by simp [isSpace, braced])).look ?_
  refine Takes.right ?_ ((takes_attributeExpression embedded).give takes_pure)
  have refused : Refuses attributeString (braced code ++ rest) := by
    refine Refuses.construct ?_ _
    show Refuses _ ([] ++ (braced code ++ rest))
    exact Takes.refuses fun p => ⟨_, takes_rest, refuses_failure⟩
  exact refused.bind

theorem takes_namedAttribute {make : String → Span → WrittenAttribute} (named : IsName name)
    (stop : ∀ c ∈ (value ++ rest).head?, isNamePart c = false)
    (taken : ∀ p, Takes (attributeValue <|> pure fun name span => .flag name span) p value rest make) :
    Takes namedAttribute p (name.toList ++ value) rest (make name (spanOf p (name.toList ++ value))) := by
  refine Takes.construct (takes_position.look ?_) _
  refine Takes.bind ((takes_name named stop).construct _) ((taken _).give (takes_get.look ?_))
  rw [spanOf, pastAll_append]
  exact takes_pure

theorem takes_spreadAttribute (embedded : IsEmbedded code) :
    Takes spreadAttribute p (Attribute.printed (.spread code span)) rest
      (.spread code (spanOf p (Attribute.printed (.spread code span)))) := by
  have text : Attribute.printed (.spread code span) = ['\x7b'] ++ (['.', '.', '.'] ++ (code.toList ++ ['\x7d'])) := rfl
  rw [text]
  refine Takes.construct (takes_position.look ?_) _
  refine Takes.bind (takes_literal "\x7b" _) ((takes_spaces (by simp) (by simp [isSpace])).look ?_)
  refine Takes.bind (takes_literal "..." _) ((takes_codeToClose (embedded.complete.closed rest)).give (takes_get.look ?_))
  simp only [spanOf, pastAll_append]
  exact takes_pure

theorem refuses_behind_position {next : Position → Parser α} (refused : ∀ p, Refuses (next p) rest) (name : Construct) :
    Refuses (construct name (position >>= next)) rest := by
  refine Refuses.construct ?_ _
  show Refuses _ ([] ++ rest)
  exact Takes.refuses fun p => ⟨_, takes_position, refused p⟩

theorem refuses_brace (other : rest.head? ≠ some '\x7b') : Refuses (literal "\x7b") rest := by
  refine refuses_literal ?_
  rintro ⟨_, whole⟩
  exact other (by rw [← whole]; rfl)

theorem refuses_spreadAttribute (other : rest.head? ≠ some '\x7b') : Refuses spreadAttribute rest :=
  refuses_behind_position (fun _ => (refuses_brace other).bind) _

theorem IsName.text {name : String} (named : IsName name) :
    ∃ c cs, name.toList = c :: cs ∧ c ≠ '\x7b' ∧ c ≠ '>' ∧ c ≠ '/' ∧ isSpace c = false ∧ isNameStart c = true := by
  obtain ⟨c, cs, text, start⟩ := named.starts
  refine ⟨c, cs, text, ?_, ?_, ?_, ?_, start⟩
  case refine_4 =>
    rw [Bool.eq_false_iff]
    intro space
    simp only [isSpace, Bool.or_eq_true, beq_iff_eq] at space
    obtain ((rfl | rfl) | rfl) | rfl := space <;> exact absurd start (by decide)
  all_goals
    rintro rfl
    exact absurd start (by decide)

theorem takes_namedItem {written : WrittenAttribute} (named : IsName name)
    (taken : Takes namedAttribute (p.past ' ') (name.toList ++ value) rest written) :
    Takes attributeItem p (' ' :: (name.toList ++ value)) rest written := by
  obtain ⟨_, _, text, brace, -, -, space, -⟩ := named.text
  show Takes _ p ([' '] ++ (name.toList ++ value)) rest written
  refine Takes.bind (takes_spaces (by simp [isSpace]) (by simp [text, space])) (Takes.right ?_ taken)
  exact refuses_spreadAttribute (by simpa [text] using brace)

theorem takes_attributeItem (p : Position) (printable : entry.Printable) (ends : EndsAttribute rest) :
    ∃ written : WrittenAttribute, Takes attributeItem p (' ' :: entry.printed) rest written ∧
      written.toAttribute = entry.located (p.past ' ') := by
  have read (data : String) : decodeText (ofList (printedText data)) = data := by
    rw [decodeText, toList_ofList, printedText, decode_printed, ofList_toList]
  match entry with
  | .named name none span =>
    have taken : Takes namedAttribute (p.past ' ') (name.toList ++ []) rest _ :=
      takes_namedAttribute printable ends.1 fun p => Takes.right (refuses_attributeValue ends) takes_pure
    have item := takes_namedItem printable taken
    rw [append_nil] at item
    exact ⟨_, item, rfl⟩
  | .named name (some (.literal data)) span =>
    refine ⟨_, takes_namedItem printable (takes_namedAttribute printable (by simp [isNamePart]) fun p =>
      (takes_quotedValue data).left), ?_⟩
    rw [WrittenAttribute.toAttribute, read]
    rfl
  | .named name (some (.expression code)) span =>
    refine ⟨_, takes_namedItem printable.1 (takes_namedAttribute printable.1 (by simp [isNamePart]) fun p =>
      (takes_bracedValue printable.2).left), ?_⟩
    rw [WrittenAttribute.toAttribute, printable.2.trimmed]
    rfl
  | .spread code span =>
    refine ⟨.spread code (spanOf (p.past ' ') (Attribute.printed (.spread code span))), ?_, ?_⟩
    · show Takes _ p ([' '] ++ Attribute.printed (.spread code span)) rest _
      exact Takes.bind (takes_spaces (by simp [isSpace]) (by simp [Attribute.printed, isSpace]))
        (takes_spreadAttribute printable).left
    · rw [WrittenAttribute.toAttribute, IsEmbedded.trimmed printable]
      rfl

theorem Attribute.Printable.head (printable : entry.Printable) :
    ∃ c cs, entry.printed = c :: cs ∧ isSpace c = false ∧ c ≠ '=' := by
  have name {name : String} (named : IsName name) (value : List Char) :
      ∃ c cs, name.toList ++ value = c :: cs ∧ isSpace c = false ∧ c ≠ '=' := by
    obtain ⟨c, cs, text, -, -, -, space, start⟩ := named.text
    refine ⟨c, cs ++ value, by rw [text]; rfl, space, ?_⟩
    rintro rfl
    exact absurd start (by decide)
  match entry with
  | .named _ none _ => simpa [Attribute.printed] using name printable []
  | .named _ (some (.literal _)) _ => exact name printable _
  | .named _ (some (.expression _)) _ => exact name printable.1 _
  | .spread _ _ => exact ⟨'\x7b', _, rfl, by decide, by decide⟩

theorem endsAttribute_attributes (printable : ∀ entry ∈ attrs, entry.Printable) (ends : EndsAttribute rest) :
    EndsAttribute (printedAttributes attrs ++ rest) := by
  cases attrs with
  | nil => exact ends
  | cons entry attrs =>
    obtain ⟨c, cs, text, space, sign⟩ := (printable entry (by simp)).head
    have whole : printedAttributes (entry :: attrs) = ' ' :: c :: (cs ++ printedAttributes attrs) := by
      simp [printedAttributes, text]
    have blank : isSpace ' ' = true := by decide
    rw [whole]
    refine ⟨by simp [isNamePart], ?_⟩
    simpa [dropWhile_cons, blank, space] using sign

theorem takes_attributes (p : Position) (printable : ∀ entry ∈ attrs, entry.Printable) (ends : EndsAttribute rest)
    (stop : Refuses attributeItem rest) {fuel : Nat} (enough : (printedAttributes attrs).length < fuel) :
    ∃ written : List WrittenAttribute,
      Takes (many attributeItem fuel) p (printedAttributes attrs) rest written ∧
        written.map WrittenAttribute.toAttribute = locatedAttributes p attrs := by
  obtain ⟨fuel, rfl⟩ : ∃ n, fuel = n + 1 := ⟨fuel - 1, by omega⟩
  induction attrs generalizing p fuel with
  | nil => exact ⟨[], Takes.right stop.bind takes_pure, rfl⟩
  | cons entry attrs ih =>
    have others := fun entry mem => printable entry (mem_cons_of_mem _ mem)
    have length : (printedAttributes (entry :: attrs)).length =
        entry.printed.length + 1 + (printedAttributes attrs).length := by
      simp [printedAttributes]
      omega
    obtain ⟨fuel, rfl⟩ : ∃ n, fuel = n + 1 := ⟨fuel - 1, by omega⟩
    obtain ⟨first, one, same⟩ := takes_attributeItem p (printable entry (by simp)) (endsAttribute_attributes others ends)
    obtain ⟨more, two, all⟩ := ih (p.pastAll (' ' :: entry.printed)) others fuel (by omega)
    refine ⟨first :: more, Takes.left ?_, by rw [map_cons, same, all]; rfl⟩
    exact Takes.bind one (two.give takes_pure)

section Nodes

variable {content : Parser (List Written)} {name : String} {data : String} {code : String}
variable {attrs : List Attribute} {tag : String} {c : Char}

theorem takes_text (solid : data ≠ "") (stop : ∀ c ∈ rest.head?, isTextChar c = false) :
    Takes text p (printedText data) rest (.text (ofList (printedText data)) (spanOf p (printedText data))) := by
  refine Takes.construct (takes_position.look ?_) _
  have plain : ∀ c ∈ printedText data, isTextChar c = true := by
    intro c mem
    have plain := printedText_plain mem
    simp only [isPrintedChar, Bool.and_eq_true] at plain
    exact plain.1.1
  have some : ¬ (ofList (printedText data)).isEmpty := by
    simpa using printedText_ne_nil solid
  refine (takes_whileChars plain stop).give ?_
  rw [if_neg some]
  exact takes_get.look takes_pure

theorem toTree?_text (data : String) (span : Span) :
    Written.toTree? (.text (ofList (printedText data)) span) = .ok (some (.text data span)) := by
  have line : (printedText data).contains '\n' = false := by
    rw [Bool.eq_false_iff]
    intro feed
    exact absurd (printedText_plain (contains_iff_mem.mp feed)) (by decide)
  have read : decode (printedText data) = data.toList := decode_printed data.toList
  rw [Written.toTree?, toList_ofList, normalizeText, line]
  simp only [Bool.false_eq_true, if_false, map_some, read, ofList_toList]
  rfl

theorem takes_expression (closed : Code.IsClosed code.toList rest) :
    Takes expression p (braced code) rest (.expression code (spanOf p (braced code))) := by
  refine Takes.construct (takes_position.look ?_) _
  show Takes _ p (['\x7b'] ++ (code.toList ++ ['\x7d'])) rest _
  refine Takes.bind (takes_literal "\x7b" _) ((takes_codeToClose closed).give (takes_get.look ?_))
  simp only [spanOf, show braced code = ['\x7b'] ++ (code.toList ++ ['\x7d']) from rfl, pastAll_append]
  exact takes_pure

theorem refuses_fragment (other : ¬ "<>".toList <+: rest) : Refuses (fragment content) rest :=
  refuses_behind_position (fun _ => (refuses_literal other).bind) _

theorem refuses_expression (other : rest.head? ≠ some '\x7b') : Refuses expression rest :=
  refuses_behind_position (fun _ => (refuses_brace other).bind) _

theorem refuses_element (other : ∀ more, rest = '<' :: more → ∀ c ∈ more.head?, isNameStart c = false) :
    Refuses (element content) rest := by
  refine refuses_behind_position (fun p => ?_) _
  by_cases opens : "<".toList <+: rest
  · obtain ⟨more, rfl⟩ := opens
    refine Takes.refuses fun p => ⟨_, takes_literal "<" _, ?_⟩
    exact ((refuses_name (other more rfl)).construct _).bind
  · exact (refuses_literal opens).bind

theorem takes_nodeExpression (closed : Code.IsClosed code.toList rest) :
    Takes (node content) p (braced code) rest (.expression code (spanOf p (braced code))) :=
  Takes.right (refuses_fragment (by simp [braced]))
    (Takes.right (refuses_element (by simp [braced])) (takes_expression closed).left)

theorem refuses_text (other : ∀ c ∈ rest.head?, isTextChar c = false) : Refuses text rest := by
  refine refuses_behind_position (fun p => ?_) _
  show Refuses _ ([] ++ rest)
  exact Takes.refuses fun p => ⟨_, takes_whileChars (by simp) other, refuses_failure⟩

theorem takes_closeTag (p : Position) (rest : List Char) (named : IsName tag) :
    ∃ span, Takes closeTag p ('<' :: '/' :: (tag.toList ++ ['>'])) rest (tag, span) := by
  refine ⟨spanOf p ('<' :: '/' :: (tag.toList ++ ['>'])), Takes.construct (takes_position.look ?_) _⟩
  have text : '<' :: '/' :: (tag.toList ++ ['>']) = ['<', '/'] ++ (tag.toList ++ ['>']) := rfl
  rw [text]
  refine Takes.bind (takes_literal "</" _) (Takes.bind ((takes_name named (by simp [isNamePart])).construct _) ?_)
  refine (takes_spaces (by simp) (by simp [isSpace])).look ((takes_literal ">" _).give (takes_get.look ?_))
  simp only [spanOf, pastAll_append]
  exact takes_pure

def EndsNodes (rest : List Char) : Prop := rest = [] ∨ ∃ more, rest = '<' :: '/' :: more

theorem refuses_node (ends : EndsNodes rest) : Refuses (node content) rest := by
  refine Refuses.orElse ?_ (Refuses.orElse ?_ (Refuses.orElse ?_ ?_))
  · refine refuses_fragment ?_
    obtain rfl | ⟨_, rfl⟩ := ends <;> simp
  · refine refuses_element fun more same c next => ?_
    obtain rfl | ⟨_, rfl⟩ := ends
    · cases same
    · cases same
      obtain rfl : '/' = c := by simpa using next
      rfl
  · refine refuses_expression ?_
    obtain rfl | ⟨_, rfl⟩ := ends <;> simp
  · refine refuses_text ?_
    obtain rfl | ⟨_, rfl⟩ := ends <;> simp [isTextChar]

theorem refuses_node_brace (rest : List Char) : Refuses (node content) ('\x7d' :: rest) :=
  (refuses_fragment (by simp)).orElse ((refuses_element (by simp)).orElse
    ((refuses_expression (by simp)).orElse (refuses_text (by simp [isTextChar]))))

theorem takes_fragment {children : List Char} {written : List Written}
    (taken : Takes content (p.pastAll ['<', '>']) children ('<' :: '/' :: '>' :: rest) written) :
    Takes (fragment content) p ('<' :: '>' :: (children ++ ['<', '/', '>'])) rest
      (.fragment written (spanOf p ('<' :: '>' :: (children ++ ['<', '/', '>'])))) := by
  have text : '<' :: '>' :: (children ++ ['<', '/', '>']) = ['<', '>'] ++ (children ++ ['<', '/', '>']) := rfl
  rw [text]
  refine Takes.construct (takes_position.look ?_) _
  refine Takes.bind (takes_literal "<>" _) (Takes.bind taken ((takes_literal "</>" _).give (takes_get.look ?_)))
  simp only [spanOf, pastAll_append]
  exact takes_pure

theorem ends_tag (more : List Char) (mark : c = '>' ∨ c = '/') :
    EndsAttribute (c :: more) ∧ Refuses attributeItem (c :: more) := by
  have other : isNamePart c = false ∧ isNameStart c = false ∧ isSpace c = false ∧ c ≠ '=' ∧ c ≠ '\x7b' := by
    obtain rfl | rfl := mark <;> decide
  obtain ⟨part, start, space, sign, brace⟩ := other
  have named : Refuses namedAttribute (c :: more) := by
    refine Refuses.construct ?_ _
    show Refuses _ ([] ++ c :: more)
    exact Takes.refuses fun p => ⟨_, takes_position, ((refuses_name (by simpa using start)).construct _).bind⟩
  have spread : Refuses spreadAttribute (c :: more) := refuses_spreadAttribute (by simpa using brace)
  have gap (p : Position) : Takes spaces p [] (c :: more) () := takes_spaces (by simp) (by simpa using space)
  have item : Refuses attributeItem ([] ++ c :: more) := Takes.refuses fun p => ⟨(), gap p, spread.orElse named⟩
  exact ⟨⟨by simpa using part, by simpa [space] using sign⟩, item⟩

theorem takes_startTag (content : Parser (List Written)) (p : Position) (finish rest : List Char) (named : IsName tag)
    (printable : ∀ entry ∈ attrs, entry.Printable) (mark : c = '>' ∨ c = '/') :
    ∃ given : List WrittenAttribute,
      given.map WrittenAttribute.toAttribute = locatedAttributes (p.pastAll ('<' :: tag.toList)) attrs ∧
        ∀ written,
          Takes (elementEnd content p tag given)
              (p.pastAll ('<' :: (tag.toList ++ printedAttributes attrs))) (c :: finish) rest written →
            Takes (element content) p ('<' :: (tag.toList ++ (printedAttributes attrs ++ c :: finish))) rest
              written := by
  obtain ⟨ends, refused⟩ := ends_tag (finish ++ rest) mark
  have enough : (printedAttributes attrs).length < (printedAttributes attrs ++ (c :: finish ++ rest)).length + 1 := by
    simp only [length_append]
    omega
  obtain ⟨given, taken, same⟩ := takes_attributes (p.pastAll ('<' :: tag.toList)) printable ends refused enough
  refine ⟨given, same, fun written finished => ?_⟩
  unfold element
  refine Takes.construct (takes_position.look ?_) _
  show Takes _ p (['<'] ++ (tag.toList ++ (printedAttributes attrs ++ c :: finish))) rest written
  have stop : ∀ d ∈ (printedAttributes attrs ++ c :: finish ++ rest).head?, isNamePart d = false := by
    have behind := endsAttribute_attributes printable ends
    rw [append_assoc]
    exact behind.1
  refine Takes.bind (takes_literal "<" _) (Takes.bind ((takes_name named stop).construct _) (takes_rest.look ?_))
  rw [append_assoc]
  rw [show p.pastAll ('<' :: tag.toList) = (p.pastAll ['<']).pastAll tag.toList from rfl] at taken
  refine Takes.bind taken ((takes_spaces (by simp) ?_).look ?_)
  · obtain rfl | rfl := mark <;> simp [isSpace]
  · have same : p.pastAll ('<' :: (tag.toList ++ printedAttributes attrs)) =
        ((p.pastAll ['<']).pastAll tag.toList).pastAll (printedAttributes attrs) := by
      simp only [← pastAll_append]
      rfl
    rwa [← same]

def TakesChildren (content : Parser (List Written)) (children : List Tree) : Prop :=
  ∀ p rest, EndsNodes rest → ∃ written, Takes content p (Tree.printedAll children) rest written ∧
    toTrees written = .ok (Tree.locatedAll p children)

theorem takes_selfClosed (content : Parser (List Written)) (p : Position) (rest : List Char) (span : Span) (named : IsName tag)
    (printable : ∀ entry ∈ attrs, entry.Printable) :
    ∃ written, Takes (element content) p (Tree.printed (.element tag attrs [] true span)) rest written ∧
      written.toTree? = .ok (some (Tree.located p (.element tag attrs [] true span))) := by
  obtain ⟨given, same, taken⟩ := takes_startTag content p ['>'] rest named printable (.inr rfl)
  have text : Tree.printed (.element tag attrs [] true span) =
      '<' :: (tag.toList ++ printedAttributes attrs) ++ ['/', '>'] := by
    simp [Tree.printed]
  refine ⟨.selfClosed tag given (spanOf p (Tree.printed (.element tag attrs [] true span))), taken _ ?_, ?_⟩
  · refine Takes.left (((takes_literal "/>" _).construct _).give (takes_get.look ?_))
    rw [text, spanOf, pastAll_append]
    exact takes_pure
  · rw [Written.toTree?, same]
    rfl

theorem takes_closed (content : Parser (List Written)) (p : Position) (rest : List Char) (span : Span) {tag : String}
    {attrs : List Attribute} {children : List Tree} (named : IsName tag)
    (printable : ∀ entry ∈ attrs, entry.Printable) (within : TakesChildren content children) :
    ∃ written, Takes (element content) p (Tree.printed (.element tag attrs children false span)) rest written ∧
      written.toTree? = .ok (some (Tree.located p (.element tag attrs children false span))) := by
  have text : Tree.printed (.element tag attrs children false span) =
      '<' :: (tag.toList ++ printedAttributes attrs) ++
        (['>'] ++ (Tree.printedAll children ++ '<' :: '/' :: (tag.toList ++ ['>']))) := by
    simp [Tree.printed]
  obtain ⟨given, same, taken⟩ := takes_startTag content p
    (Tree.printedAll children ++ '<' :: '/' :: (tag.toList ++ ['>'])) rest named printable (.inl rfl)
  obtain ⟨below, read, trees⟩ := within ((p.pastAll ('<' :: (tag.toList ++ printedAttributes attrs))).pastAll ['>'])
    ('<' :: '/' :: (tag.toList ++ ['>']) ++ rest) (.inr ⟨_, rfl⟩)
  obtain ⟨closeSpan, closes⟩ := takes_closeTag
    (((p.pastAll ('<' :: (tag.toList ++ printedAttributes attrs))).pastAll ['>']).pastAll (Tree.printedAll children)) rest named
  refine ⟨.element tag given below tag closeSpan (spanOf p (Tree.printed (.element tag attrs children false span))), taken _ ?_, ?_⟩
  · refine Takes.right ((refuses_literal (by simp)).construct _).bind ?_
    show Takes _ _ (['>'] ++ (Tree.printedAll children ++ '<' :: '/' :: (tag.toList ++ ['>']))) rest _
    refine Takes.bind (takes_literal ">" _) (Takes.bind read (closes.give (takes_get.look ?_)))
    rw [text, spanOf]
    simp only [pastAll_append]
    exact takes_pure
  · have mem : p.pastAll ('<' :: (tag.toList ++ printedAttributes attrs)) =
        (p.pastAll ('<' :: tag.toList)).pastAll (printedAttributes attrs) := by
      rw [← cons_append, pastAll_append]
    have behind : (p.pastAll ('<' :: (tag.toList ++ printedAttributes attrs))).pastAll ['>'] =
        (p.pastAll ('<' :: tag.toList)).pastAll (printedAttributes attrs ++ ['>']) := by
      rw [mem, pastAll_append]
    rw [Written.toTree?, trees, same, behind]
    exact if_pos rfl

theorem markup_head (apart : ∀ next ∈ trees.head?, next.isText = false)
    (ends : EndsNodes rest) : ∀ c ∈ (Tree.printedAll trees ++ rest).head?, isTextChar c = false := by
  match trees with
  | [] => obtain rfl | ⟨_, rfl⟩ := ends <;> simp [Tree.printedAll, isTextChar]
  | .text data span :: trees => exact absurd (apart (.text data span) rfl) (by simp [Tree.isText])
  | .expression code span :: trees => simp [Tree.printedAll, Tree.printed, braced, isTextChar]
  | .fragment children span :: trees => simp [Tree.printedAll, Tree.printed, isTextChar]
  | .element tag attrs children selfClosing span :: trees =>
    simp [Tree.printedAll, Tree.printed, isTextChar]

theorem not_fragment (named : IsName tag) (attrs : List Attribute) (children : List Tree) (selfClosing : Bool)
    (span : Span) (rest : List Char) :
    ¬ "<>".toList <+: Tree.printed (.element tag attrs children selfClosing span) ++ rest := by
  obtain ⟨_, _, text, -, other, -⟩ := named.text
  rw [Tree.printed, text]
  simpa using other.symm

theorem printed_ne_nil {tree : Tree} (printable : tree.Printable) : tree.printed ≠ [] := by
  cases tree with
  | text => exact printedText_ne_nil printable
  | _ => simp [Tree.printed, braced]

mutual

theorem takes_node (p : Position) (rest : List Char) (fuel : Nat) {tree : Tree} (printable : tree.Printable)
    (stop : tree.isText = true → ∀ c ∈ rest.head?, isTextChar c = false) (enough : tree.printed.length ≤ fuel) :
    ∃ written, Takes (node (nodes fuel)) p tree.printed rest written ∧
      written.toTree? = .ok (some (tree.located p)) := by
  match tree with
  | .text data span =>
    obtain ⟨c, _, text⟩ := exists_cons_of_ne_nil (printedText_ne_nil printable)
    have plain : isTextChar c = true := by
      have mem : c ∈ printedText data := by simp [text]
      have plain := printedText_plain mem
      simp only [isPrintedChar, Bool.and_eq_true] at plain
      exact plain.1.1
    have first : c ≠ '<' ∧ c ≠ '\x7b' := by
      constructor <;> rintro rfl <;> exact absurd plain (by decide)
    refine ⟨_, Takes.right ?_ (Takes.right ?_ (Takes.right ?_ (takes_text printable (stop rfl)))), toTree?_text data _⟩
    all_goals rw [Tree.printed, text]
    · exact refuses_fragment (by simp [first.1.symm])
    · exact refuses_element fun more same => absurd (cons.inj same).1 first.1
    · exact refuses_expression (by simpa using first.2)
  | .expression code span =>
    refine ⟨_, takes_nodeExpression (printable.complete.closed rest), ?_⟩
    have whole : trim code.toList = code.toList := by
      rw [← ofList_inj, ofList_toList]
      exact printable.trimmed
    rw [Written.toTree?, whole, printable.solid, IsEmbedded.trimmed printable]
    rfl
  | .fragment children span =>
    have length : (Tree.printed (.fragment children span)).length = (Tree.printedAll children).length + 5 := by
      simp [Tree.printed]
    obtain ⟨_, read, trees⟩ :=
      takes_nodes (p.pastAll ['<', '>']) ('<' :: '/' :: '>' :: rest) fuel printable (.inr ⟨_, rfl⟩) (by omega)
    refine ⟨_, (takes_fragment read).left, ?_⟩
    rw [Written.toTree?, trees]
    rfl
  | .element tag attrs children true span =>
    obtain ⟨named, each, alone, -⟩ := printable
    obtain rfl := alone rfl
    obtain ⟨written, taken, read⟩ := takes_selfClosed (nodes fuel) p rest span named each
    exact ⟨written, Takes.right (refuses_fragment (not_fragment named _ _ _ _ _)) taken.left, read⟩
  | .element tag attrs children false span =>
    obtain ⟨named, each, -, all⟩ := printable
    have length : (Tree.printedAll children).length < fuel := by
      simp only [Tree.printed, length_cons, length_append, Bool.false_eq_true, if_false] at enough
      omega
    obtain ⟨written, taken, read⟩ := takes_closed (nodes fuel) p rest span named each
      fun p rest ends => takes_nodes p rest fuel all ends length
    exact ⟨written, Takes.right (refuses_fragment (not_fragment named _ _ _ _ _)) taken.left, read⟩

theorem takes_nodes (p : Position) (rest : List Char) (fuel : Nat) {trees : List Tree}
    (printable : Tree.PrintableAll trees) (ends : EndsNodes rest) (enough : (Tree.printedAll trees).length < fuel) :
    ∃ written, Takes (nodes fuel) p (Tree.printedAll trees) rest written ∧
      toTrees written = .ok (Tree.locatedAll p trees) := by
  obtain ⟨fuel, rfl⟩ : ∃ n, fuel = n + 1 := ⟨fuel - 1, by omega⟩
  match trees with
  | [] => exact ⟨[], Takes.right (refuses_node ends).bind takes_pure, rfl⟩
  | tree :: trees =>
    have solid := length_pos_iff.mpr (printed_ne_nil printable.1)
    have length : (Tree.printedAll (tree :: trees)).length = tree.printed.length + (Tree.printedAll trees).length :=
      length_append
    obtain ⟨first, one, read⟩ := takes_node p (Tree.printedAll trees ++ rest) fuel printable.1
      (fun text => markup_head (printable.2.1 text) ends) (by omega)
    obtain ⟨others, more, reads⟩ := takes_nodes (p.pastAll tree.printed) rest fuel printable.2.2 ends (by omega)
    refine ⟨first :: others, Takes.left (Takes.bind one (more.give takes_pure)), ?_⟩
    rw [toTrees, read, reads]
    rfl

end

end Nodes

end Grammar

section Roots
open Template.Parser
variable {tree : Tree} {roots : List Tree}

theorem takes_template (printable : Tree.PrintableAll roots) :
    ∃ written, Takes template {} (Tree.printedAll roots) [] written ∧
      toTrees written = .ok (Tree.locatedAll {} roots) := by
  obtain ⟨written, taken, read⟩ := takes_nodes {} [] ((Tree.printedAll roots ++ []).length + 1) printable (.inl rfl) (by simp)
  refine ⟨written, Takes.construct ?_ _, read⟩
  refine Takes.give (takes_rest.look taken) ?_
  have ended : Takes (if ([] : List Char).isEmpty then (pure () : Parser Unit) else failure)
      (({} : Position).pastAll (Tree.printedAll roots)) [] [] () := by
    rw [if_pos isEmpty_nil]
    exact takes_pure
  exact Takes.look (Takes.construct (takes_rest.look ended) _) takes_pure

theorem takes_viewBlock (printable : tree.Printable) (markup : tree.isText = false) (rest : List Char) :
    ∃ written, Takes viewBlock {} ('\x7b' :: tree.printed ++ ['\x7d']) rest written ∧
      toTrees written = .ok [tree.located (({} : Position).past '\x7b')] := by
  obtain ⟨written, taken, read⟩ := takes_node (({} : Position).past '\x7b') ('\x7d' :: rest)
    (tree.printed ++ '\x7d' :: rest).length printable (by simp [markup]) (by simp)
  refine ⟨[written], Takes.construct (Takes.bind (takes_literal "\x7b" _) ?_) _, ?_⟩
  · have ends : Takes (nodes (tree.printed ++ '\x7d' :: rest).length)
        ((({} : Position).past '\x7b').pastAll tree.printed) [] ('\x7d' :: rest) [] := by
      rw [length_append, length_cons, ← Nat.add_assoc]
      exact Takes.right (refuses_node_brace rest).bind takes_pure
    have mem : Takes (nodes ((tree.printed ++ '\x7d' :: rest).length + 1)) (({} : Position).past '\x7b') tree.printed
        ('\x7d' :: rest) [written] := Takes.left (taken.give (ends.look takes_pure))
    exact Takes.bind (takes_rest.look mem) ((takes_literal "\x7d" _).give takes_pure)
  · rw [toTrees, read]
    rfl

theorem parseBlock_printed (printable : tree.Printable) (markup : tree.isText = false) (rest : List Char) :
    parseBlock (ofList ('\x7b' :: tree.printed ++ ['\x7d'] ++ rest)) =
      .ok (trimRoots [tree.located (({} : Position).past '\x7b')],
        (({} : Position).pastAll ('\x7b' :: tree.printed ++ ['\x7d'])).offset) := by
  obtain ⟨written, taken, trees⟩ := takes_viewBlock printable markup rest
  have found := taken {}
  have read : Parser.parse viewBlock (ofList ('\x7b' :: tree.printed ++ ['\x7d'] ++ rest)) =
      .ok (written, ⟨({} : Position).pastAll ('\x7b' :: tree.printed ++ ['\x7d']), rest⟩) := by
    rw [Parser.parse_eq_ok_iff, Cursor.ofText, toList_ofList]
    exact found
  rw [parseBlock, read]
  dsimp only
  rw [trees]
  rfl

theorem bare_attributes (p : Position) (attrs : List Attribute) :
    (locatedAttributes p attrs).map Attribute.bare = attrs.map Attribute.bare := by
  induction attrs generalizing p with
  | nil => rfl
  | cons entry _ ih =>
    have same : (entry.located (p.past ' ')).bare = entry.bare := by cases entry <;> rfl
    rw [locatedAttributes, map_cons, same, ih, map_cons]

mutual

theorem bare_located (p : Position) (tree : Tree) : (tree.located p).bare = tree.bare := by
  match tree with
  | .element _ _ _ _ _ =>
    rw [Tree.located, Tree.bare, bare_attributes, bareAll_located, Tree.bare]
  | .fragment _ _ => rw [Tree.located, Tree.bare, bareAll_located, Tree.bare]
  | .text _ _ => rfl
  | .expression _ _ => rfl

theorem bareAll_located (p : Position) (trees : List Tree) : Tree.bareAll (Tree.locatedAll p trees) = Tree.bareAll trees := by
  match trees with
  | [] => rfl
  | tree :: trees => rw [Tree.locatedAll, Tree.bareAll, bare_located, bareAll_located, Tree.bareAll]

end

theorem bareAll_eq_map (trees : List Tree) : Tree.bareAll trees = trees.map Tree.bare := by
  induction trees with
  | nil => rfl
  | cons _ _ ih => rw [Tree.bareAll, ih, map_cons]

theorem mapLast_eq_self {α : Type} {f : α → α} {items : List α} (fixed : ∀ a ∈ items.getLast?, f a = a) :
    mapLast f items = items := by
  fun_induction mapLast f items with
  | case1 => rfl
  | case2 a => rw [fixed a rfl]
  | case3 _ rest some ih =>
    obtain ⟨_, _, rfl⟩ := exists_cons_of_ne_nil some
    rw [ih fun last finish => fixed last (by rwa [getLast?_cons_cons])]

theorem isBlankText_bare (tree : Tree) : tree.bare.isBlankText = tree.isBlankText := by
  cases tree <;> rfl

theorem mapText_eq_self {f : String → String} {other : Tree} (same : tree.bare = other.bare)
    (fixed : ∀ data span, other = .text data span → f data = data) : tree.mapText f = tree := by
  cases tree with
  | text data =>
    cases other with
    | text _ place =>
      obtain ⟨rfl, -⟩ := Tree.text.inj same
      rw [Tree.mapText, fixed data place rfl]
    | _ => cases same
  | _ => rfl

theorem ArePrintable.trimRoots (printable : ArePrintable roots)
    (same : Tree.bareAll trees = Tree.bareAll roots) : trimRoots trees = trees := by
  rw [bareAll_eq_map, bareAll_eq_map] at same
  have shown : trees.filter (!·.isBlankText) = trees := by
    refine filter_eq_self.mpr fun tree mem => ?_
    have known : tree.bare ∈ roots.map Tree.bare := same ▸ mem_map_of_mem mem
    obtain ⟨root, within, equal⟩ := mem_map.mp known
    rw [← isBlankText_bare, ← equal, isBlankText_bare, printable.shown root within]
    rfl
  have first : ∀ tree ∈ trees.head?, tree.mapText trimmedStart = tree := by
    intro tree start
    have known := congrArg head? same
    rw [head?_map, head?_map, mem_def.mp start] at known
    obtain ⟨_, start, equal⟩ := map_eq_some_iff.mp known.symm
    exact mapText_eq_self equal.symm fun data span text => printable.starts data span (text ▸ start)
  have last : ∀ tree ∈ trees.getLast?, tree.mapText trimmedEnd = tree := by
    intro tree finish
    have known := congrArg getLast? same
    rw [getLast?_map, getLast?_map, mem_def.mp finish] at known
    obtain ⟨_, finish, equal⟩ := map_eq_some_iff.mp known.symm
    exact mapText_eq_self equal.symm fun data span text => printable.ends data span (text ▸ finish)
  rw [Template.trimRoots, shown]
  cases trees with
  | nil => rfl
  | cons tree rest => exact (congrArg (mapLast _) (congrArg (· :: rest) (first tree rfl))).trans (mapLast_eq_self last)

/-- What is printed of a template is read as that template, and the span of each construct is where it is printed. -/
theorem parse_printed {roots : List Tree} (printable : ArePrintable roots) :
    parse (String.ofList (Tree.printedAll roots)) = .ok (Tree.locatedAll {} roots) ∧
      Tree.bareAll (Tree.locatedAll {} roots) = Tree.bareAll roots := by
  have same := bareAll_located {} roots
  refine ⟨?_, same⟩
  obtain ⟨written, taken, trees⟩ := takes_template printable.all
  have found := taken {}
  rw [append_nil] at found
  have read : Parser.parse template (ofList (Tree.printedAll roots)) =
      .ok (written, ⟨({} : Position).pastAll (Tree.printedAll roots), []⟩) := by
    rw [Parser.parse_eq_ok_iff, Cursor.ofText, toList_ofList]
    exact found
  rw [parse, read]
  show trimRoots <$> toTrees written = _
  rw [trees]
  exact congrArg Except.ok (printable.trimRoots same)

/-- `a < b`, and a paragraph with attributes of each kind around a line, an empty element and an expression. -/
def samplePage : List Tree :=
  [.text "a < b" default,
    .element "p"
      [.named "class" (some (.literal "it's")) default, .named "hidden" none default, .spread "rest" default,
        .named "title" (some (.expression "f(\"\x7d\")")) default]
      [.text "one & \ntwo" default, .element "br" [] [] true default, .expression "g(\x7b1\x7d)" default] false default,
    .fragment [] default]

theorem parse_printed_samplePage : ArePrintable samplePage ∧
    parse (String.ofList (Tree.printedAll samplePage)) = .ok (Tree.locatedAll {} samplePage) ∧
      Tree.bareAll (Tree.locatedAll {} samplePage) = Tree.bareAll samplePage := by
  have named {name : String} {c : Char} {cs : List Char} (text : name.toList = c :: cs) (start : isNameStart c = true)
      (parts : name.toList.all isNamePart = true) : IsName name := ⟨⟨c, cs, text, start⟩, all_eq_true.mp parts⟩
  have rest : IsEmbedded "rest" :=
    ⟨.other (by decide) (by decide) (.other (by decide) (by decide) (.other (by decide) (by decide)
      (.other (by decide) (by decide) .nil))), by decide, by cbv⟩
  have title : IsEmbedded "f(\"\x7d\")" :=
    ⟨.other (by decide) (by decide) (.other (by decide) (by decide)
      (.string (.plain (by decide) (by decide) .nil) (.other (by decide) (by decide) .nil))), by decide, by cbv⟩
  have shown : IsEmbedded "g(\x7b1\x7d)" :=
    ⟨.other (by decide) (by decide) (.other (by decide) (by decide)
      (.group (.other (by decide) (by decide) .nil) (.other (by decide) (by decide) .nil))), by decide, by cbv⟩
  have attributes : ∀ entry ∈ [.named "class" (some (.literal "it's")) default, .named "hidden" none default,
      .spread "rest" default, .named "title" (some (.expression "f(\"\x7d\")")) default], Attribute.Printable entry := by
    simp only [forall_mem_cons]
    exact ⟨named rfl (by decide) (by decide), named rfl (by decide) (by decide), rest,
      ⟨named rfl (by decide) (by decide), title⟩, by simp⟩
  have children : Tree.PrintableAll
      [.text "one & \ntwo" default, .element "br" [] [] true default, .expression "g(\x7b1\x7d)" default] :=
    ⟨by simp [Tree.Printable], by simp [Tree.isText],
      ⟨named rfl (by decide) (by decide), by simp, fun _ => rfl, trivial⟩, by simp [Tree.isText], shown, by simp, trivial⟩
  have printable : ArePrintable samplePage :=
    { all := ⟨by simp [Tree.Printable], by simp [Tree.isText],
        ⟨named rfl (by decide) (by decide), attributes, by simp, children⟩, by simp [Tree.isText], trivial, by simp, trivial⟩
      shown := by simp only [samplePage, forall_mem_cons]; decide
      starts := fun data span start => by cases start; decide
      ends := fun data span finish => by cases finish }
  exact ⟨printable, parse_printed printable⟩

end Roots
end LiveMarkup.Template
