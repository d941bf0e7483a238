import ClassSort.Edit
import ClassSort.Order.Service
import ClassSort.Rule.Grouping
import ClassSort.Rule.Sorting
import ClassSort.Rule.StyleLang
import ClassSort.Settings
import ClassSort.Source.Roots

/-!
# Checking and fixing one file

A check collects the findings of all rules on a text. A fix applies them and checks the result
again, until nothing is left to do. Fixes that overlap wait for the next pass, and the number of
passes is bounded.
-/

namespace ClassSort

inductive CheckError where
  | parsing (path : Path) (cause : SyntaxError)
  /-- No resolver for the file's configuration. -/
  | order (cause : OrderError)
  /-- The classes of a file could not be ranked. -/
  | sorting (path : Path) (cause : OrderError)
  | edit (cause : InvalidRange)
  deriving DecidableEq, Repr

def CheckError.message : CheckError → String
  | parsing path _ => s!"failed to parse {path.text}"
  | order cause => cause.message
  | sorting path _ => s!"failed to sort classes in {path.text}"
  | edit cause => cause.message

structure FixOutcome where
  output : String
  /-- Passes that changed the text. -/
  passes : Nat
  /-- What is still found in the output. -/
  remaining : List Violation
  deriving DecidableEq, Repr

structure Checker (κ : Type) where
  settings : Settings
  /-- Relative paths of configurations start here. -/
  cwd : Path
  service : Service κ
  parser : SourceParser

namespace Checker

variable {σ κ : Type}

def new (grammars : Script.Grammars) (settings : Settings) (cwd : Path) : Checker κ :=
  ⟨settings, cwd, .new ConfigResolver.refreshRate Service.contextTtl, .new grammars⟩

def maxPasses : Nat := 10

def request (c : Checker κ) (path : Path) : ConfigRequest where
  source := c.settings.config
  monorepo := c.settings.monorepo
  cwd := c.cwd
  file := if c.settings.monorepo then some path else none

def styleViolations (kind : FileKind) (source : String) : List Violation :=
  if kind = .svelte then (Source.styleBlocks source kind).filterMap (StyleLang.check source) else []

def groupingViolations (kind : FileKind) (source : String) (roots : List Node) : List Violation :=
  if kind.isMarkup then roots.filterMap (Grouping.check source) else []

def sortingViolations (o : Oracle σ κ) (files : FileTree) (now : Nat) (path : Path) (source : String)
    (roots : List Node) (c : Checker κ) (s : σ) : Except CheckError (List Violation) × Checker κ × σ :=
  if roots.isEmpty then (.ok [], c, s)
  else
    match c.service.resolver o files (c.request path) now s with
    | (.error e, service, s) => (.error (.order e), { c with service }, s)
    | (.ok id, service, s) =>
      let (result, service, s) :=
        service.onResolver id (.ok []) (Sorting.check o.toRanking source roots c.settings.sort) s
      (result.mapError (.sorting path), { c with service }, s)

def findings (o : Oracle σ κ) (files : FileTree) (now : Nat) (path : Path) (kind : FileKind)
    (source : String) (roots : List Node) (c : Checker κ) (s : σ) :
    Except CheckError (List Violation) × Checker κ × σ :=
  match c.sortingViolations o files now path source roots s with
  | (.error e, c, s) => (.error e, c, s)
  | (.ok sorting, c, s) =>
    let found := styleViolations kind source ++ sorting ++ groupingViolations kind source roots
    (.ok (sortViolations found), c, s)

/-- The findings in a text, by range. A file of no known kind has none. -/
def check (o : Oracle σ κ) (files : FileTree) (now : Nat) (path : Path) (source : String)
    (c : Checker κ) (s : σ) : Except CheckError (List Violation) × Checker κ × σ :=
  match FileKind.ofPath? path with
  | none => (.ok [], c, s)
  | some kind =>
    match c.parser.roots source kind with
    | (.error e, parser) => (.error (.parsing path e), { c with parser }, s)
    | (.ok roots, parser) => { c with parser }.findings o files now path kind source roots s

/-- Passes over a text as long as something changes; `clock k` is the time of the `k`-th check. -/
def fixFrom (o : Oracle σ κ) (files : FileTree) (clock : Nat → Nat) (path : Path) :
    Nat → FixOutcome → Checker κ → σ → Except CheckError FixOutcome × Checker κ × σ
  | 0, done, c, s => (.ok done, c, s)
  | left + 1, done, c, s =>
    if done.remaining.isEmpty then (.ok done, c, s)
    else
      match applyViolations done.output done.remaining with
      | .error e => (.error (.edit e), c, s)
      | .ok fixed =>
        if fixed.applied = 0 ∨ fixed.output = done.output then (.ok done, c, s)
        else
          let passes := done.passes + 1
          match c.check o files (clock passes) path fixed.output s with
          | (.error e, c, s) => (.error e, c, s)
          | (.ok remaining, c, s) => fixFrom o files clock path left ⟨fixed.output, passes, remaining⟩ c s

/-- Fixes a text until it is stable or the passes are used up. -/
def fix (o : Oracle σ κ) (files : FileTree) (clock : Nat → Nat) (path : Path) (source : String)
    (c : Checker κ) (s : σ) : Except CheckError FixOutcome × Checker κ × σ :=
  match c.check o files (clock 0) path source s with
  | (.error e, c, s) => (.error e, c, s)
  | (.ok found, c, s) => fixFrom o files clock path maxPasses ⟨source, 0, found⟩ c s

end Checker

end ClassSort
