import ClassSort.Checker
import ClassSort.CommandLine
import ClassSort.Files.Discovery
import ClassSort.Order.Table
import ClassSort.Report
import ClassSort.Worker.Context

/-!
# Runs

A run reads its settings, finds its files and takes them one after the other: each is checked, or
fixed and written back if that changes it, and what is then still found is reported. The first
failure ends the run; what was written and reported before it stays.
-/

namespace ClassSort

/-- What a run finds around it. -/
structure Environment where
  /-- The working directory of the program. -/
  cwd : Path
  /-- The text of the worker that comes with the program. -/
  script : String
  /-- What a worker does. -/
  workers : WorkerConfig → Behaviour
  grammars : Script.Grammars
  /-- The time of the `k`-th check of the `i`-th file, in milliseconds since the start. -/
  clock : Nat → Nat → Nat
  /-- The time of the start, in milliseconds since the epoch. -/
  start : Int

structure Summary where
  files : Nat
  /-- Files that were written. -/
  fixed : Nat
  /-- Findings that are left. -/
  violations : Nat
  deriving DecidableEq, Repr

inductive RunError where
  | unreadableSettings (path : Path) (cause : FileError)
  | invalidSettings (path : Path)
  | worker (cause : OracleError)
  | unreadable (path : Path) (cause : FileError)
  | check (cause : CheckError)
  | unwritable (path : Path) (cause : FileError)
  deriving DecidableEq, Repr

def RunError.message : RunError → String
  | unreadableSettings path _ => s!"failed to read settings file {path.text}"
  | invalidSettings path => s!"invalid settings in {path.text}"
  | worker _ => "failed to set up the ranking worker"
  | unreadable path _ => s!"failed to read {path.text}"
  | check cause => cause.message
  | unwritable path _ => s!"failed to write {path.text}"

namespace Settings

def read (files : FileTree) (path : Path) : Except RunError Settings :=
  match files.read path with
  | .error e => .error (.unreadableSettings path e)
  | .ok text =>
    match parse? text with
    | some settings => .ok settings
    | none => .error (.invalidSettings path)

/-- The settings of a directory: those of a named file, else those of its settings file, else the
standard ones. -/
def load (files : FileTree) (named : Option Path) (cwd : Path) : Except RunError Settings :=
  match named with
  | some path => read files (cwd.join path)
  | none =>
    let path := cwd.join ⟨fileName⟩
    if files.isFile path then read files path else .ok standard

end Settings

structure Progress where
  files : FileTree
  report : String
  summary : Summary

namespace Progress

def start (files : FileTree) : Progress := ⟨files, "", ⟨0, 0, 0⟩⟩

def record (p : Progress) (name text : String) (violations : List Violation) : Progress :=
  { p with
    report := p.report ++ ClassSort.report name text violations
    summary := { p.summary with
      files := p.summary.files + 1
      violations := p.summary.violations + violations.length } }

def store (p : Progress) (path : Path) (source output : String) (now : Int) : Except RunError Progress :=
  if output = source then .ok p
  else
    match p.files.write path output now with
    | .error e => .error (.unwritable path e)
    | .ok files => .ok { p with files, summary := { p.summary with fixed := p.summary.fixed + 1 } }

end Progress

structure Outcome where
  result : Except RunError Summary
  report : String
  files : FileTree

namespace Run

variable {σ κ : Type}

def shownPath (cwd path : Path) : String := ((path.relativeTo? cwd).getD path).text

def process (o : Oracle σ κ) (files : FileTree) (clock : Nat → Nat) (fixing : Bool) (path : Path)
    (source : String) (c : Checker κ) (s : σ) :
    Except CheckError (String × List Violation) × Checker κ × σ :=
  if fixing then
    let (result, c, s) := c.fix o files clock path source s
    (result.map fun outcome => (outcome.output, outcome.remaining), c, s)
  else
    let (result, c, s) := c.check o files (clock 0) path source s
    (result.map fun found => (source, found), c, s)

/-- Takes one file: what is done then, or why nothing is done. -/
def file (o : Oracle σ κ) (clock : Nat → Nat) (start : Int) (fixing : Bool) (path : Path) (p : Progress)
    (c : Checker κ) (s : σ) : Except RunError Progress × Checker κ × σ :=
  match p.files.read path with
  | .error e => (.error (.unreadable path e), c, s)
  | .ok source =>
    match process o p.files clock fixing path source c s with
    | (.error e, c, s) => (.error (.check e), c, s)
    | (.ok (text, found), c, s) =>
      match p.store path source text (start + clock 0) with
      | .error e => (.error e, c, s)
      | .ok p => (.ok (p.record (shownPath c.cwd path) text found), c, s)

/-- Takes files in order up to the first failure; `clock i` belongs to the `i`-th of them. -/
def files (o : Oracle σ κ) (clock : Nat → Nat → Nat) (start : Int) (fixing : Bool) :
    List Path → Progress → Checker κ → σ → Outcome
  | [], p, _, _ => ⟨.ok p.summary, p.report, p.files⟩
  | path :: rest, p, c, s =>
    match file o (clock 0) start fixing path p c s with
    | (.error e, _, _) => ⟨.error e, p.report, p.files⟩
    | (.ok p, c, s) => files o (fun i => clock (i + 1)) start fixing rest p c s

def workerConfig (env : Environment) (settings : Settings) (cwd : Path) : WorkerConfig :=
  { (settings.worker.map WorkerConfig.new).getD (.bundled env.script) with cwd := some cwd }

def withSettings (env : Environment) (line : CommandLine) (cwd : Path) (settings : Settings)
    (tree : FileTree) : Outcome :=
  let paths := Discovery.discover tree cwd (line.paths.map Path.mk)
  match settings.table with
  | some table =>
    let oracle : Oracle Unit OrderTable := OrderTable.fromFile (cwd.join table)
    files oracle env.clock env.start line.fix paths (.start tree)
      (.new env.grammars settings cwd) ()
  | none =>
    let config := workerConfig env settings cwd
    match Client.new config with
    | .error e => ⟨.error (.worker e), "", tree⟩
    | .ok client =>
      files (WorkerContext.oracle (env.workers config)) env.clock env.start line.fix paths (.start tree)
        (.new env.grammars settings cwd) client

end Run

def CommandLine.directory (line : CommandLine) (env : Environment) : Path :=
  match line.cwd with
  | some dir => env.cwd.absolute ⟨dir⟩
  | none => env.cwd

def run (env : Environment) (line : CommandLine) (tree : FileTree) : Outcome :=
  let cwd := line.directory env
  match Settings.load tree (line.settings.map Path.mk) cwd with
  | .error e => ⟨.error e, "", tree⟩
  | .ok settings => Run.withSettings env line cwd (settings.override line) tree

end ClassSort
