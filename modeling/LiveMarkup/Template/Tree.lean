import LiveMarkup.Markup.Entity
import LiveMarkup.Template.Grammar
import LiveMarkup.Text.Blank

/-!
Templates as trees: elements, fragments, texts and embedded expressions, each with its span. The tree is
what the written form means: indentation is dropped, references are decoded, comments are gone and every
element is closed under its own name.
-/

namespace LiveMarkup.Template
open Text Markup

inductive AttributeValue where
  | literal (text : String)
  | expression (code : String)
  deriving Repr, BEq, DecidableEq

inductive Attribute where
  | named (name : String) (value : Option AttributeValue) (span : Span)
  | spread (code : String) (span : Span)
  deriving Repr, BEq, DecidableEq

inductive Tree where
  | element (tag : String) (attributes : List Attribute) (children : List Tree) (selfClosing : Bool) (span : Span)
  | fragment (children : List Tree) (span : Span)
  | text (data : String) (span : Span)
  | expression (code : String) (span : Span)
  deriving Repr, Inhabited

/-- A line of text that spans lines: blanks next to a line break are dropped. -/
def cleanLine (first last : Bool) (line : List Char) : List Char :=
  let line := if first then line else trimStart line
  if last then line else trimEnd line

def cleanLines (first : Bool) : List (List Char) → List (List Char)
  | [] => []
  | line :: rest => cleanLine first rest.isEmpty line :: cleanLines false rest

/-- Text on one line is kept. Otherwise blanks next to line breaks go, empty lines are dropped and the others
are joined by a space; text of nothing else is no text. -/
def normalizeText (raw : List Char) : Option (List Char) :=
  if raw.contains '\n' then
    let kept := (cleanLines true (splitAt '\n' raw)).filter (!·.isEmpty)
    if kept.isEmpty then none else some ([' '].intercalate kept)
  else some raw

def isCommentOnly (code : List Char) : Bool :=
  match _found : trimStart code with
  | [] => true
  | '/' :: '*' :: body =>
    match splitOnceAt "*/".toList body with
    | some (before, _) => isCommentOnly (body.drop (before.length + 2))
    | none => false
  | '/' :: '/' :: body => isCommentOnly (body.dropWhile (· ≠ '\n'))
  | _ => false
termination_by code.length
decreasing_by
  all_goals
    have shorter := (List.dropWhile_sublist isBlank (l := code)).length_le
    have line := (List.dropWhile_sublist (· ≠ '\n') (l := body)).length_le
    simp only [trimStart] at _found
    rw [_found] at shorter
    simp only [List.length_cons, List.length_drop] at *
    omega

def trimCode (code : String) : String := trimmed code

def WrittenAttribute.toAttribute : WrittenAttribute → Attribute
  | .flag name span => .named name none span
  | .quoted name text span => .named name (some (.literal (Entity.decodeText text))) span
  | .braced name code span => .named name (some (.expression (trimCode code))) span
  | .spread code span => .spread (trimCode code) span

mutual

/-- The tree of what is written; blank text and comments are none. The first element in the source that is
closed under another name is an error. -/
def Written.toTree? : Written → Except CompileError (Option Tree)
  | .text raw span =>
    pure ((normalizeText raw.toList).map fun text => .text (String.ofList (Entity.decode text)) span)
  | .expression code span =>
    pure (if isCommentOnly (trim code.toList) then none else some (.expression (trimCode code) span))
  | .fragment children span => do return some (.fragment (← toTrees children) span)
  | .selfClosed tag attributes span =>
    pure (some (.element tag (attributes.map WrittenAttribute.toAttribute) [] true span))
  | .element tag attributes children close closeSpan span => do
    let children ← toTrees children
    if close = tag then
      return some (.element tag (attributes.map WrittenAttribute.toAttribute) children false span)
    else throw (.ofSpan (.mismatchedClose tag close) closeSpan)

def toTrees : List Written → Except CompileError (List Tree)
  | [] => pure []
  | written :: rest => do
    let first ← written.toTree?
    let others ← toTrees rest
    return first.toList ++ others

end

def Tree.isBlankText : Tree → Bool
  | .text data _ => (trim data.toList).isEmpty
  | _ => false

def Tree.mapText (f : String → String) : Tree → Tree
  | .text data span => .text (f data) span
  | tree => tree

def mapLast {α : Type} (f : α → α) : List α → List α
  | [] => []
  | [a] => [f a]
  | a :: rest => a :: mapLast f rest

/-- Blanks around the markup are not content: blank root texts go, and the outer edges of the first and the
last root are trimmed. -/
def trimRoots (roots : List Tree) : List Tree :=
  match roots.filter (!·.isBlankText) with
  | [] => []
  | first :: rest => mapLast (Tree.mapText trimmedEnd) (first.mapText trimmedStart :: rest)

def parse (source : String) : Except CompileError (List Tree) :=
  match Grammar.template.parse source with
  | .error attempts => .error ⟨.expected attempts.constructs, attempts.position.line, attempts.position.column⟩
  | .ok (written, _) => trimRoots <$> toTrees written

/-- The roots of the block in braces at the start of a text, and the number of bytes it takes. A text that
ends inside the block leaves it unclosed; its keyword and place are the caller's to fill in. -/
def parseBlock (source : String) : Except CompileError (List Tree × Nat) :=
  match Grammar.viewBlock.parse source with
  | .error attempts =>
    if attempts.position.offset ≥ source.utf8ByteSize then .error ⟨.unclosedBlock "", 1, 1⟩
    else .error ⟨.expected attempts.constructs, attempts.position.line, attempts.position.column⟩
  | .ok (written, cursor) => do return (trimRoots (← toTrees written), cursor.position.offset)

end LiveMarkup.Template
