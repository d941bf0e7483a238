import ClassSort.Files.Ignore
import ClassSort.Order.Sort
import ClassSort.Source.Kind

/-!
# Discovery

The files of a run. A file that is named is taken if its kind is known. A directory stands for the
files in it and below it, without hidden ones and without what ignore files leave out; a directory
that is left out is not entered.
-/

namespace ClassSort.Discovery

def isHidden (name : String) : Bool := name.toList.head? == some '.'

def isSkipped (files : FileTree) (directory : List String) (name : String) (isDirectory : Bool) : Bool :=
  match Verdict.ofEntry files directory name isDirectory with
  | .ignored => true
  | .kept => false
  | .nothing => isHidden name

/-- The files below a directory, which is known as `shown`. No row of directories is longer than
`fuel`. -/
def below (files : FileTree) : Nat → Path → List String → List Path
  | 0, _, _ => []
  | fuel + 1, shown, directory =>
    (files.children directory).flatMap fun (name, entry) =>
      let path := shown.join ⟨name⟩
      let isDirectory := entry.isDirectory
      if isSkipped files directory name isDirectory then []
      else if isDirectory then below files fuel path (directory ++ [name])
      else [path]

def ofPath (files : FileTree) (path : Path) : List Path :=
  match files.resolve path with
  | .error _ => []
  | .ok names =>
    match files.entry? names with
    | none => []
    | some entry => if entry.isDirectory then below files (files.entries.length + 1) path names else [path]

def dropRepeats : List Path → List Path
  | p :: q :: rest =>
    match dropRepeats (q :: rest) with
    | [] => [p]
    | r :: rest => if p.same r then p :: rest else p :: r :: rest
  | ps => ps

def discover (files : FileTree) (cwd : Path) (paths : List Path) : List Path :=
  let found := paths.flatMap fun p => ofPath files (cwd.join p)
  dropRepeats (sortBy Path.le (found.filter fun p => (FileKind.ofPath? p).isSome))

end ClassSort.Discovery
