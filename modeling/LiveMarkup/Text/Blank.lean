/-!
White space as Unicode's `White_Space` property lists it, and the three things texts are cut by it:
trimming at either end and splitting into words.
-/

namespace LiveMarkup.Text

def isBlank (c : Char) : Bool :=
  let n := c.toNat
  (9 ≤ n && n ≤ 13) || n == 0x20 || n == 0x85 || n == 0xA0 || n == 0x1680 ||
    (0x2000 ≤ n && n ≤ 0x200A) || n == 0x2028 || n == 0x2029 || n == 0x202F || n == 0x205F || n == 0x3000

def trimStart (cs : List Char) : List Char := cs.dropWhile isBlank

def trimEnd (cs : List Char) : List Char := (cs.reverse.dropWhile isBlank).reverse

def trim (cs : List Char) : List Char := trimEnd (trimStart cs)

/-- The maximal runs of characters without white space, from `pending` (reversed) on. -/
def wordsFrom (pending : List Char) : List Char → List (List Char)
  | [] => if pending.isEmpty then [] else [pending.reverse]
  | c :: rest =>
    if isBlank c then
      if pending.isEmpty then wordsFrom [] rest else pending.reverse :: wordsFrom [] rest
    else wordsFrom (c :: pending) rest

def words (cs : List Char) : List (List Char) := wordsFrom [] cs

/-- Cuts at every `mark`; there is one more piece than there are marks. -/
def splitAt (mark : Char) : List Char → List (List Char)
  | [] => [[]]
  | c :: rest =>
    if c = mark then [] :: splitAt mark rest
    else match splitAt mark rest with
      | [] => [[c]]
      | piece :: pieces => (c :: piece) :: pieces

def splitOnce (mark : Char) : List Char → Option (List Char × List Char)
  | [] => none
  | c :: rest =>
    if c = mark then some ([], rest)
    else (splitOnce mark rest).map fun (before, after) => (c :: before, after)

def splitOnceAt (mark : List Char) : List Char → Option (List Char × List Char)
  | [] => if mark.isEmpty then some ([], []) else none
  | c :: rest =>
    if mark.isPrefixOf (c :: rest) then some ([], (c :: rest).drop mark.length)
    else (splitOnceAt mark rest).map fun (before, after) => (c :: before, after)

/-- Equality of ASCII texts up to case; other characters must be the same. -/
def sameIgnoringCase (a b : String) : Bool :=
  a.toList.map Char.toLower == b.toList.map Char.toLower

def isAscii (c : Char) : Bool := c.toNat < 128

def trimmed (s : String) : String := String.ofList (trim s.toList)

def trimmedStart (s : String) : String := String.ofList (trimStart s.toList)

def trimmedEnd (s : String) : String := String.ofList (trimEnd s.toList)

def wordsOf (s : String) : List String := (words s.toList).map String.ofList

end LiveMarkup.Text
