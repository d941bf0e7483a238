import ClassSort.Settings
import ClassSort.Text.Blank

/-!
# The command line

Arguments are read from the left. An option takes the argument behind it or, behind an equals sign,
the rest of its own; an argument with a hyphen in front is never taken for a value. What an option
or a path holds is looked at when the next one begins, so of several faults the first that shows
itself counts.
-/

namespace ClassSort

structure CommandLine where
  paths : List String
  fix : Bool
  settings : Option String
  config : Option String
  worker : Option String
  table : Option String
  cwd : Option String
  verbose : Bool
  deriving DecidableEq, Repr

inductive UsageError where
  | missingPath
  | unknownArgument
  /-- An option that stands twice. -/
  | repeated
  /-- A value that is missing, or empty where it must not be. -/
  | invalidValue
  | unwantedValue
  | displayHelp
  | displayVersion
  deriving DecidableEq, Repr

namespace CommandLine

inductive Flag where
  | fix
  | verbose
  deriving DecidableEq, Repr

inductive Slot where
  | settings
  | config
  | worker
  | table
  | cwd
  deriving DecidableEq, Repr

/-- What an option stands for. -/
inductive Switch where
  | flag (flag : Flag)
  | slot (slot : Slot)
  | help
  | version
  deriving DecidableEq, Repr

def Switch.ofLong? : String → Option Switch
  | "fix" => some (.flag .fix)
  | "verbose" => some (.flag .verbose)
  | "settings" => some (.slot .settings)
  | "config" => some (.slot .config)
  | "worker" => some (.slot .worker)
  | "table" => some (.slot .table)
  | "cwd" => some (.slot .cwd)
  | "help" => some .help
  | "version" => some .version
  | _ => none

def Switch.ofShort? : Char → Option Switch
  | 'v' => some (.flag .verbose)
  | 'h' => some .help
  | 'V' => some .version
  | _ => none

def empty : CommandLine := ⟨[], false, none, none, none, none, none, false⟩

def value? (c : CommandLine) : Slot → Option String
  | .settings => c.settings
  | .config => c.config
  | .worker => c.worker
  | .table => c.table
  | .cwd => c.cwd

def setValue (c : CommandLine) (v : String) : Slot → CommandLine
  | .settings => { c with settings := some v }
  | .config => { c with config := some v }
  | .worker => { c with worker := some v }
  | .table => { c with table := some v }
  | .cwd => { c with cwd := some v }

/-- What was begun and is not looked at yet. -/
inductive Pending where
  | nothing
  | slot (slot : Slot) (value : Option String)
  | paths (values : List String)

def accept (c : CommandLine) (slot : Slot) (v : String) : Except UsageError CommandLine :=
  if (c.value? slot).isSome then .error .repeated
  else if v = "" ∧ slot ≠ .worker then .error .invalidValue
  else .ok (c.setValue v slot)

def settle (c : CommandLine) : Pending → Except UsageError CommandLine
  | .nothing => .ok c
  | .slot _ none => .error .invalidValue
  | .slot slot (some v) => c.accept slot v
  | .paths values =>
    if values.any (· == "") then .error .invalidValue else .ok { c with paths := c.paths ++ values }

def raise (c : CommandLine) (flag : Flag) : Except UsageError CommandLine :=
  match flag with
  | .fix => if c.fix then .error .repeated else .ok { c with fix := true }
  | .verbose => if c.verbose then .error .repeated else .ok { c with verbose := true }

def react (c : CommandLine) (p : Pending) : Switch → Except UsageError CommandLine
  | .flag flag => do (← c.settle p).raise flag
  | .help => do
    let _ ← c.settle p
    .error .displayHelp
  | .version => do
    let _ ← c.settle p
    .error .displayVersion
  | .slot _ => .error .unknownArgument

def readShort (c : CommandLine) (p : Pending) : List Char → Except UsageError CommandLine
  | [] => c.settle p
  | ch :: rest =>
    match Switch.ofShort? ch with
    | none => .error .unknownArgument
    | some switch => do readShort (← c.react p switch) .nothing rest

/-- A name behind two hyphens, and what stands behind an equals sign. -/
def readLong (c : CommandLine) (p : Pending) (name : String) (attached : Option String) :
    Except UsageError (CommandLine × Pending) :=
  match Switch.ofLong? name, attached with
  | none, _ => .error .unknownArgument
  | some (.slot slot), some v => do .ok (← (← c.settle p).accept slot v, .nothing)
  | some (.slot slot), none => do .ok (← c.settle p, .slot slot none)
  | some _, some _ => .error .unwantedValue
  | some switch, none => do .ok (← c.react p switch, .nothing)

def readPath (c : CommandLine) (p : Pending) (v : String) : Except UsageError (CommandLine × Pending) :=
  match p with
  | .paths values => .ok (c, .paths (values ++ [v]))
  | p => do .ok (← c.settle p, .paths [v])

def finish (c : CommandLine) (p : Pending) : Except UsageError CommandLine := do
  let c ← c.settle p
  if c.paths.isEmpty then .error .missingPath else .ok c

def readPaths : List String → CommandLine → Pending → Except UsageError CommandLine
  | [], c, p => c.finish p
  | v :: rest, c, p => do
    let (c, p) ← c.readPath p v
    readPaths rest c p

def readArguments : List String → CommandLine → Pending → Except UsageError CommandLine
  | [], c, p => c.finish p
  | v :: rest, c, p =>
    match v.toList with
    | ['-', '-'] => readPaths rest c p
    | '-' :: '-' :: body => do
      let name := String.ofList (body.takeWhile (· != '='))
      let attached := (body.dropWhile (· != '=')).tail?.map String.ofList
      let (c, p) ← c.readLong p name attached
      readArguments rest c p
    | '-' :: ch :: body => do readArguments rest (← c.readShort p (ch :: body)) .nothing
    | _ =>
      match p with
      | .slot slot none => readArguments rest c (.slot slot (some v))
      | p => do
        let (c, p) ← c.readPath p v
        readArguments rest c p

/-- Reads the arguments of a run. -/
def parse (arguments : List String) : Except UsageError CommandLine :=
  readArguments arguments empty .nothing

end CommandLine

/-- What the command line says goes before what the settings say. -/
def Settings.override (s : Settings) (c : CommandLine) : Settings :=
  { s with
    config := (c.config.map fun p => .path ⟨p⟩).getD s.config
    worker := (c.worker.map words).or s.worker
    table := (c.table.map Path.mk).or s.table }

end ClassSort
