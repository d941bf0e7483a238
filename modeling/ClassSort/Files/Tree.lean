import ClassSort.Files.Path

/-!
# File trees

The files that a run sees, as a value: every file and directory by the names on the way to it, with
the time it was last modified. There are no links. A path is followed piece by piece, so a piece
that does not exist or is no directory stops it even when a later `..` would step back over it.
-/

namespace ClassSort

inductive Entry where
  | file (text : String) (modified : Int)
  /-- A file whose bytes are no text. -/
  | blob (modified : Int)
  | dir (modified : Int)
  deriving DecidableEq, Repr

namespace Entry

def isDirectory : Entry → Bool
  | dir _ => true
  | _ => false

def modified : Entry → Int
  | file _ m => m
  | blob m => m
  | dir m => m

end Entry

structure FileTree where
  entries : List (List String × Entry)
  deriving DecidableEq, Repr

inductive FileError where
  | notFound
  | notDirectory
  | isDirectory
  | notText
  deriving DecidableEq, Repr

def FileError.message : FileError → String
  | notFound => "No such file or directory (os error 2)"
  | notDirectory => "Not a directory (os error 20)"
  | isDirectory => "Is a directory (os error 21)"
  | notText => "stream did not contain valid UTF-8"

namespace FileTree

def empty : FileTree := ⟨[]⟩

/-- What stands at the end of a row of names; the row without names is the root directory. -/
def entry? (t : FileTree) : List String → Option Entry
  | [] => some (.dir 0)
  | names => t.entries.lookup names

/-- Follows the pieces of a path from a directory, given by its names from the last to the first. -/
def walk (t : FileTree) : List String → List (List Char) → Except FileError (List String)
  | here, [] => .ok here.reverse
  | here, s :: rest =>
    match t.entry? here.reverse with
    | some (.dir _) =>
      if Path.isIdle s then walk t here rest
      else if s == ['.', '.'] then walk t here.tail rest
      else
        let next := String.ofList s :: here
        match t.entry? next.reverse with
        | some _ => walk t next rest
        | none => .error .notFound
    | _ => .error .notDirectory

/-- The names on the way to what a path stands for. -/
def resolve (t : FileTree) (p : Path) : Except FileError (List String) := t.walk [] p.analyse.2.2

def find (t : FileTree) (p : Path) : Except FileError Entry := do
  match t.entry? (← t.resolve p) with
  | some e => .ok e
  | none => .error .notFound

def modified (t : FileTree) (p : Path) : Except FileError Int := do
  .ok (← t.find p).modified

def isFile (t : FileTree) (p : Path) : Bool :=
  match t.find p with
  | .ok e => !e.isDirectory
  | .error _ => false

def read (t : FileTree) (p : Path) : Except FileError String := do
  match ← t.find p with
  | .file text _ => .ok text
  | .blob _ => .error .notText
  | .dir _ => .error .isDirectory

def set (t : FileTree) (names : List String) (e : Entry) : FileTree :=
  ⟨(names, e) :: t.entries.filter (·.1 != names)⟩

def write (t : FileTree) (p : Path) (text : String) (now : Int) : Except FileError FileTree := do
  let names ← t.resolve p
  match t.entry? names with
  | some (.dir _) => .error .isDirectory
  | _ => .ok (t.set names (.file text now))

/-- Makes the directories above an entry, then the entry. -/
def place (t : FileTree) (names : List String) (e : Entry) : FileTree :=
  let above := ((List.range names.length).drop 1).map names.take
  let t := above.foldl (fun t dir => if (t.entry? dir).isSome then t else t.set dir (.dir 0)) t
  t.set names e

def touch (t : FileTree) (names : List String) (modified : Int) : FileTree :=
  match t.entry? names with
  | some (.file text _) => t.set names (.file text modified)
  | some (.blob _) => t.set names (.blob modified)
  | some (.dir _) => t.set names (.dir modified)
  | none => t

def remove (t : FileTree) (names : List String) : FileTree :=
  ⟨t.entries.filter fun e => !names.isPrefixOf e.1⟩

def children (t : FileTree) (dir : List String) : List (String × Entry) :=
  t.entries.filterMap fun (names, e) =>
    match names.getLast? with
    | some name => if names.dropLast == dir then some (name, e) else none
    | none => none

end FileTree

end ClassSort
