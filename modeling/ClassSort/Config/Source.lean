import ClassSort.Files.Tree
import ClassSort.Json.Write
import ClassSort.Order.Error

/-!
# Where the framework's configuration comes from

A configuration is a file or an object given in place. Its identity decides which requests share a
context: a file by its path and the time it was last modified, an object by its text. The time is
read again only when the last look at the file is older than the refresh interval.
-/

namespace ClassSort

inductive ConfigSource where
  | path (path : Path)
  | inline (value : Json)
  deriving Repr

def ConfigSource.standard : ConfigSource := .path ⟨"./src/app.css"⟩

inductive ConfigIdentity where
  | file (path : Path) (modified : Nat)
  | inline (text : String)
  deriving Repr

namespace ConfigIdentity

def same : ConfigIdentity → ConfigIdentity → Bool
  | file p m, file q n => p.same q && m == n
  | inline a, inline b => a == b
  | _, _ => false

instance : BEq ConfigIdentity := ⟨same⟩

end ConfigIdentity

/-- A configuration that a context can be made from. -/
structure ResolvedConfig where
  identity : ConfigIdentity
  source : ConfigSource
  deriving Repr

namespace ResolvedConfig

def payload (c : ResolvedConfig) : Json :=
  match c.source with
  | .path p => .str p.text
  | .inline v => v

def stamp (c : ResolvedConfig) : Nat :=
  match c.identity with
  | .file _ modified => modified
  | .inline _ => 0

def path? (c : ResolvedConfig) : Option Path :=
  match c.identity with
  | .file p _ => some p
  | .inline _ => none

end ResolvedConfig

structure FileCheck where
  modified : Nat
  checkedAt : Nat
  deriving DecidableEq, Repr

structure ConfigResolver where
  refresh : Nat
  checks : List (Path × FileCheck)
  deriving Repr

namespace ConfigResolver

/-- Two looks at one file are at least this many milliseconds apart. -/
def refreshRate : Nat := 1000

def new (refresh : Nat) : ConfigResolver := ⟨refresh, []⟩

def check? (r : ConfigResolver) (p : Path) : Option FileCheck :=
  (r.checks.find? (·.1.same p)).map (·.2)

/-- Milliseconds since the epoch, none before it, as far as 64 bits hold them. -/
def modifiedMillis (files : FileTree) (p : Path) : Except OrderError Nat :=
  match files.modified p with
  | .ok m => .ok (min m.toNat (UInt64.size - 1))
  | .error .notFound => .error (.configNotFound p)
  | .error e => .error (.unreadable p e.message)

/-- The time a file was last modified, as of the last look or of one made now. -/
def modified (r : ConfigResolver) (files : FileTree) (p : Path) (now : Nat) :
    Except OrderError Nat × ConfigResolver :=
  let look : Except OrderError Nat × ConfigResolver :=
    match modifiedMillis files p with
    | .error e => (.error e, r)
    | .ok m => (.ok m, { r with checks := (p, ⟨m, now⟩) :: r.checks.filter (!·.1.same p) })
  match r.check? p with
  | some seen => if now - seen.checkedAt ≤ r.refresh then (.ok seen.modified, r) else look
  | none => look

def resolve (r : ConfigResolver) (files : FileTree) (source : ConfigSource) (cwd : Path) (now : Nat) :
    Except OrderError ResolvedConfig × ConfigResolver :=
  match source with
  | .inline v => (.ok ⟨.inline v.print, source⟩, r)
  | .path rel =>
    let p := cwd.join rel
    match r.modified files p now with
    | (.error e, r) => (.error e, r)
    | (.ok m, r) => (.ok ⟨.file p m, .path p⟩, r)

end ConfigResolver

end ClassSort
