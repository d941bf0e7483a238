import ClassSort.Files.Glob
import ClassSort.Files.Tree
import ClassSort.Text.Blank

/-!
# Ignore files

An ignore file says for the paths below its directory which are left out. Of the rules of one file
the last that matches counts; a rule may also take a path back in. Rules without a slash hold at any
depth, those that end in a slash hold for directories. Files called `.ignore` go before those called
`.gitignore`, these before the private exclusions of a repository, and among files of one name the
nearest that says anything counts.
-/

namespace ClassSort

structure IgnoreRule where
  pattern : List Glob
  /-- The rule takes paths back in. -/
  keeps : Bool
  onlyDirectories : Bool
  deriving Repr

namespace IgnoreRule

def endsWith (cs ending : List Char) : Bool := ending.isSuffixOf cs

/-- A pattern without a slash stands at any depth; one that ends in two stars leaves the directory
itself alone. -/
def completed (atRoot : Bool) (cs : List Char) : List Char :=
  let anywhere := !atRoot && !cs.contains '/' && cs != ['*', '*']
  let cs := if anywhere then '*' :: '*' :: '/' :: cs else cs
  if endsWith cs ['/', '*', '*'] then cs ++ ['/', '*'] else cs

def ofBody? (keeps atRoot : Bool) (cs : List Char) : Option IgnoreRule := do
  let onlyDirectories := endsWith cs ['/']
  let cs := if onlyDirectories then cs.dropLast else cs
  let cs := if onlyDirectories && endsWith cs ['\\'] then cs.dropLast else cs
  some ⟨← Glob.parse? (completed atRoot cs), keeps, onlyDirectories⟩

def ofLine? (line : List Char) : Option IgnoreRule :=
  let line := if endsWith line ['\\', ' '] then line else dropEnd isBlank line
  match line with
  | [] => none
  | '#' :: _ => none
  | '\\' :: '!' :: rest => ofBody? false false ('!' :: rest)
  | '\\' :: '#' :: rest => ofBody? false false ('#' :: rest)
  | '!' :: '/' :: rest => ofBody? true true rest
  | '!' :: rest => ofBody? true false rest
  | '/' :: rest => ofBody? false true rest
  | _ => ofBody? false false line

/-- The lines of a text, without the carriage returns at their ends. -/
def lines (text : List Char) : List (List Char) :=
  (split text).map fun line => if endsWith line ['\r'] then line.dropLast else line
where
  split : List Char → List (List Char)
    | [] => [[]]
    | c :: cs =>
      match split cs with
      | line :: rest => if c == '\n' then [] :: line :: rest else (c :: line) :: rest
      | [] => [[c]]

def ofText (text : String) : List IgnoreRule :=
  (lines (text.toList.dropWhile (· == '\ufeff'))).filterMap ofLine?

def applies (path : List UInt8) (isDirectory : Bool) (r : IgnoreRule) : Bool :=
  (isDirectory || !r.onlyDirectories) && Glob.matchesAll r.pattern path

end IgnoreRule

inductive Verdict where
  | nothing
  | ignored
  | kept
  deriving DecidableEq, Repr

namespace Verdict

def or : Verdict → Verdict → Verdict
  | nothing, v => v
  | v, _ => v

def ofRules (rules : List IgnoreRule) (path : List UInt8) (isDirectory : Bool) : Verdict :=
  match (rules.filter (·.applies path isDirectory)).getLast? with
  | none => nothing
  | some r => if r.keeps then kept else ignored

def ofFile (files : FileTree) (directory file below : List String) (isDirectory : Bool) : Verdict :=
  match files.entry? (directory ++ file) with
  | some (.file text _) =>
    ofRules (IgnoreRule.ofText text) ("/".intercalate below).toUTF8.data.toList isDirectory
  | _ => nothing

/-- What ignore files of one name say, the nearest first. The first row holds the names of a directory
from the last to the first; the path goes on below it. -/
def ofAncestors (files : FileTree) (file : List String) (isDirectory : Bool) :
    List String → List String → Verdict
  | [], below => ofFile files [] file below isDirectory
  | name :: above, below =>
    (ofFile files (name :: above).reverse file below isDirectory).or
      (ofAncestors files file isDirectory above (name :: below))

def ignoreFiles : List (List String) := [[".ignore"], [".gitignore"], [".git", "info", "exclude"]]

def ofEntry (files : FileTree) (directory : List String) (name : String) (isDirectory : Bool) : Verdict :=
  ignoreFiles.foldr (fun file v => (ofAncestors files file isDirectory directory.reverse [name]).or v) nothing

end Verdict

end ClassSort
