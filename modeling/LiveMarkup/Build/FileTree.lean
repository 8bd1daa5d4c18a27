import LiveMarkup.Text.Blank

/-!
A tree of files, as far as building looks at it: which paths are files and what they hold, and which paths
are directories because they were made or because something lies below them.
-/

namespace LiveMarkup.Build

abbrev Path := List String

namespace Path

def ofString (text : String) : Path :=
  ((Text.splitAt '/' text.toList).map String.ofList).filter fun name => name != "" && name != "."

def render (path : Path) : String := "/".intercalate path

/-- Name by name in the order of code points, a path before what lies below it. -/
def le : Path → Path → Bool
  | [], _ => true
  | _ :: _, [] => false
  | a :: as, b :: bs => if a = b then le as bs else a < b

def isSource (path : Path) : Bool :=
  match path.getLast? with
  | none => false
  | some name =>
    let cs := name.toList
    ".rs".toList.isSuffixOf cs && 3 < cs.length

end Path

structure Place where
  path : Path
  spelling : String
  deriving Repr, BEq, DecidableEq

namespace Place

def ofString (text : String) : Place := ⟨.ofString text, text⟩

/-- The place at a relative path; the spelling goes on behind one slash. -/
def below (place : Place) (relative : Path) : Place :=
  if relative.isEmpty then place
  else
    let front := if place.spelling = "" || place.spelling.toList.getLast? = some '/' then place.spelling
      else place.spelling ++ "/"
    ⟨place.path ++ relative, front ++ relative.render⟩

/-- Leaves out slashes and single points at the end of a reversed spelling. -/
def trimEnd : List Char → List Char
  | '/' :: rest => trimEnd rest
  | '.' :: '/' :: rest => trimEnd rest
  | cs => cs

def parent (place : Place) : Place :=
  let reversed := trimEnd place.spelling.toList.reverse
  ⟨place.path.dropLast, String.ofList (trimEnd (reversed.dropWhile (· != '/'))).reverse⟩

end Place

inductive Content where
  | text (data : String)
  | bytes (data : List UInt8)
  deriving Repr, BEq, DecidableEq

def Content.ofBytes (data : List UInt8) : Content :=
  match String.fromUTF8? ⟨data.toArray⟩ with
  | some read => .text read
  | none => .bytes data

inductive Entry where
  | file (content : Content)
  | directory
  deriving Repr, BEq, DecidableEq

structure FileTree where
  entries : List (Path × Entry)
  deriving Repr

namespace FileTree

def file? (tree : FileTree) (path : Path) : Option Content :=
  tree.entries.findSome? fun (p, entry) =>
    match entry with
    | .file content => if p = path then some content else none
    | .directory => none

/-- The root is a directory, and so is every path with an entry for a directory or with entries below it. -/
def isDirectory (tree : FileTree) (path : Path) : Bool :=
  path.isEmpty || tree.entries.any fun (p, entry) =>
    match entry with
    | .file _ => path.isPrefixOf p && path.length < p.length
    | .directory => path.isPrefixOf p

def files (tree : FileTree) : List Path :=
  tree.entries.filterMap fun (p, entry) =>
    match entry with
    | .file _ => some p
    | .directory => none

def filesBelow (tree : FileTree) (path : Path) : List Path :=
  tree.files.filter fun p => path.isPrefixOf p && path.length < p.length

def listing (tree : FileTree) (path : Path) : List String :=
  (tree.entries.filterMap fun (p, _) => if path.isPrefixOf p then (p.drop path.length).head? else none).eraseDups

/-- More than the directories of a tree: the root, and all paths that an entry goes through. -/
def directoryBound (tree : FileTree) : Nat := tree.entries.foldl (fun bound (p, _) => bound + p.length) 1

def write (tree : FileTree) (path : Path) (text : String) : FileTree :=
  ⟨tree.entries.filter (·.1 != path) ++ [(path, .file (.text text))]⟩

def makeDirectory (tree : FileTree) (path : Path) : FileTree :=
  if tree.isDirectory path then tree else ⟨tree.entries ++ [(path, .directory)]⟩

/-- Whether a path or something above it is a file, so that it cannot become a directory. -/
def blocked (tree : FileTree) (path : Path) : Bool :=
  tree.files.any fun p => p.isPrefixOf path

end FileTree
end LiveMarkup.Build
