import LiveMarkup.Number.Reading

/-!
The values that cells hold and programs pass around, and the text that each shows.
-/

namespace LiveMarkup.Live
open Number

/-- How many bits an integer has; `native` is the width of an address, which is 64 bits. -/
inductive Width where
  | bits8 | bits16 | bits32 | bits64 | bits128 | native
  deriving Repr, BEq, DecidableEq

def Width.bits : Width → Nat
  | .bits8 => 8
  | .bits16 => 16
  | .bits32 => 32
  | .bits64 => 64
  | .bits128 => 128
  | .native => 64

structure IntegerKind where
  signed : Bool
  width : Width
  deriving Repr, BEq, DecidableEq

namespace IntegerKind

def standard : IntegerKind := ⟨true, .bits64⟩

/-- The integer of the kind that differs from `n` by a multiple of two to the width. -/
def wrap (kind : IntegerKind) (n : Int) : Int :=
  if kind.signed then n.bmod (Nat.pow 2 kind.width.bits) else n.emod (Int.pow 2 kind.width.bits)

def holds (kind : IntegerKind) (n : Int) : Bool := kind.wrap n == n

def read? (kind : IntegerKind) (text : String) : Option Int :=
  if !kind.signed && text.toList.head? = some '-' then none
  else (integer? text.toList).filter kind.holds

end IntegerKind

inductive FloatKind where
  | single | double
  deriving Repr, BEq, DecidableEq

def FloatKind.format : FloatKind → Format
  | .single => .single
  | .double => .double

/-- How a text is kept: by its owner alone, for ever, or shared. -/
inductive TextKind where
  | owned | fixed | shared
  deriving Repr, BEq, DecidableEq

inductive Datum where
  | unit
  | bool (value : Bool)
  | integer (kind : IntegerKind) (value : Int)
  | float (kind : FloatKind) (value : Binary)
  | text (kind : TextKind) (data : String)
  | char (value : Char)
  | list (items : List Datum)
  | some (content : Datum)
  | none
  deriving Repr, Inhabited

namespace Datum

def int (n : Int) : Datum := .integer .standard (IntegerKind.standard.wrap n)

def string (s : String) : Datum := .text .owned s

def ofOption : Option Datum → Datum
  | Option.some content => .some content
  | Option.none => .none

mutual

/-- Equality of values of one kind; numbers are compared as numbers. -/
def equal : Datum → Datum → Bool
  | .unit, .unit => true
  | .bool a, .bool b => a == b
  | .integer kind a, .integer kind' b => kind == kind' && a == b
  | .float kind a, .float kind' b => kind == kind' && a.equal b
  | .text kind a, .text kind' b => kind == kind' && a == b
  | .char a, .char b => a == b
  | .list as, .list bs => equalAll as bs
  | .some a, .some b => equal a b
  | .none, .none => true
  | _, _ => false

def equalAll : List Datum → List Datum → Bool
  | [], [] => true
  | a :: as, b :: bs => equal a b && equalAll as bs
  | _, _ => false

end

instance : BEq Datum := ⟨equal⟩

/-- What a value other than a list or an optional one is written as; nothing for those that have no text of their own. -/
def scalarText? : Datum → Option String
  | .integer _ value => Option.some (toString value)
  | .float kind value => Option.some (kind.format.text value)
  | .text _ data => Option.some data
  | .char value => Option.some (String.singleton value)
  | _ => Option.none

mutual

def shown : Datum → String
  | .bool value => if value then "true" else "false"
  | .list items => shownAll items
  | .some content => shown content
  | .unit => ""
  | .none => ""
  | .integer kind value => ((Datum.integer kind value).scalarText?).getD ""
  | .float kind value => ((Datum.float kind value).scalarText?).getD ""
  | .text _ data => data
  | .char value => String.singleton value

def shownAll : List Datum → String
  | [] => ""
  | item :: rest => shown item ++ shownAll rest

end

/-- Whether a value can be given for an attribute. -/
def fitsAttribute : Datum → Bool
  | .unit => false
  | .list _ => false
  | .some content => content.fitsAttribute
  | _ => true

/-- The attribute that such a value sets: `true` an empty one, `false` and nothing none at all, others their text. -/
def attribute? : Datum → Option String
  | .bool value => if value then Option.some "" else Option.none
  | .some content => content.attribute?
  | datum => datum.scalarText?

/-- The attribute that a value of unknown kind sets. Of the optional values only those of texts that one owns or
that are fixed are known. -/
def entryText? : Datum → Option String
  | .bool value => if value then Option.some "" else Option.none
  | .some (.text .owned data) => Option.some data
  | .some (.text .fixed data) => Option.some data
  | datum => datum.scalarText?

end Datum
end LiveMarkup.Live
