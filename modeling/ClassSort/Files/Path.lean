/-!
# Paths

A path is kept as it was written, since messages show it that way, and understood as a row of
components: doubled and trailing slashes and the component `.` mean nothing, except for a `.` at
the front of a relative path. Two paths are the same when their components are.
-/

namespace ClassSort

inductive Component where
  | root
  | current
  | parent
  | name (name : String)
  deriving DecidableEq, Repr

structure Path where
  text : String
  deriving DecidableEq, Repr

namespace Path

def segments : List Char → List (List Char)
  | [] => [[]]
  | c :: cs =>
    match segments cs with
    | s :: rest => if c == '/' then [] :: s :: rest else (c :: s) :: rest
    | [] => [[c]]

def isIdle (segment : List Char) : Bool := segment == [] || segment == ['.']

def analyse (p : Path) : Option Component × List Char × List (List Char) :=
  match p.text.toList with
  | '/' :: body => (some .root, ['/'], segments body)
  | ['.'] => (some .current, ['.'], [])
  | '.' :: '/' :: body => (some .current, ['.'], [] :: segments body)
  | body => (none, [], segments body)

def component (segment : List Char) : Component :=
  if segment == ['.', '.'] then .parent else .name (String.ofList segment)

def components (p : Path) : List Component :=
  let (lead, _, body) := p.analyse
  lead.toList ++ (body.filter (!isIdle ·)).map component

def names (p : Path) : List String :=
  p.components.filterMap fun
    | .name n => some n
    | _ => none

def same (p q : Path) : Bool := p.components == q.components

def isAbsolute (p : Path) : Bool := p.text.toList.head? == some '/'

/-- Puts a relative path behind a directory; an absolute one stands for itself. -/
def join (dir rel : Path) : Path :=
  if rel.isAbsolute then rel
  else
    let slash := if dir.text.toList.getLast?.any (· != '/') then "/" else ""
    ⟨dir.text ++ slash ++ rel.text⟩

def trimIdleEnd (body : List (List Char)) : List (List Char) :=
  (body.reverse.dropWhile isIdle).reverse

def ofBody (lead : List Char) (body : List (List Char)) : Path :=
  ⟨String.ofList (lead ++ ['/'].intercalate body)⟩

/-- The path without its last component. -/
def parent? (p : Path) : Option Path :=
  let (lead, leadText, body) := p.analyse
  match trimIdleEnd body with
  | [] => if lead = some .current then some ⟨""⟩ else none
  | rest => some (ofBody leadText (trimIdleEnd rest.dropLast))

def fileName? (p : Path) : Option String :=
  match p.components.getLast? with
  | some (.name n) => some n
  | _ => none

/-- What stands behind the last point of the name; a point at the front does not count. -/
def extension? (p : Path) : Option String := do
  let name := (← p.fileName?).toList
  let after := (name.reverse.takeWhile (· != '.')).reverse
  if after.length + 1 < name.length then some (String.ofList after) else none

def startsWith (p dir : Path) : Bool := dir.components.isPrefixOf p.components

def dropComponents : Nat → List (List Char) → List (List Char)
  | _, [] => []
  | n, s :: rest =>
    if isIdle s then dropComponents n rest
    else
      match n with
      | 0 => s :: rest
      | n + 1 => dropComponents n rest

def relativeTo? (p dir : Path) : Option Path :=
  if !p.startsWith dir then none
  else if dir.components.isEmpty then some p
  else
    let (lead, _, body) := p.analyse
    some (ofBody [] (trimIdleEnd (dropComponents (dir.components.length - lead.toList.length) body)))

/-- Byte order of names decides; the root goes first, then `.`, `..` and names. -/
def componentLe : Component → Component → Bool
  | .root, _ => true
  | .current, c => c != .root
  | .parent, c => c != .root && c != .current
  | .name a, .name b => a ≤ b
  | .name _, _ => false

def componentsLe : List Component → List Component → Bool
  | [], _ => true
  | _ :: _, [] => false
  | a :: as, b :: bs => if a = b then componentsLe as bs else componentLe a b

def le (p q : Path) : Bool := componentsLe p.components q.components

/-- An absolute path that names the same place, seen from the directory `base`. -/
def absolute (base p : Path) : Path :=
  let names := (p.analyse.2.2.filter (!isIdle ·))
  let trailing := if p.text.toList.getLast? == some '/' then [[]] else []
  if p.isAbsolute then ofBody ['/'] (names ++ trailing)
  else base.join (ofBody [] (names ++ trailing))

end Path

end ClassSort
