import ClassSort.Run
import ClassSort.Script.Parse

/-!
# The program

The outer layer: it takes a picture of the files that a run may ask for, carries out the command
line on the picture, prints the report and writes back what changed. Workers are not started from
here, so orders come from a table.
-/

namespace ClassSort.Program

def placeOf (names : List String) : String := "/" ++ "/".intercalate names

def millis (t : IO.FS.SystemTime) : Int := t.sec * 1000 + t.nsec.toNat / 1000000

def metadata (path : String) : IO IO.FS.Metadata := do (← IO.FS.realPath path).metadata

def readEntry (path : String) : IO (Option Entry) := do
  let .ok data ← (metadata path).toBaseIO | return none
  if data.type != .file then return none
  match ← (IO.FS.readFile path).toBaseIO with
  | .ok text => return some (.file text (millis data.modified))
  | .error _ => return some (.blob (millis data.modified))

/-- Everything below a directory that can be read. Links are not followed. -/
partial def readBelow (names : List String) (tree : FileTree) : IO FileTree := do
  let .ok found ← (do (← IO.FS.realPath (placeOf names)).readDir).toBaseIO | return tree
  let mut tree := tree.place names (.dir (millis (← metadata (placeOf names)).modified))
  for entry in found do
    let names := names ++ [entry.fileName]
    match (← entry.path.symlinkMetadata).type with
    | .dir => tree ← readBelow names tree
    | .file =>
      if let some entry ← readEntry (placeOf names) then
        tree := tree.place names entry
    | _ => pure ()
  return tree

def readAt (path : Path) (tree : FileTree) : IO FileTree := do
  match ← readEntry path.text with
  | some entry => return tree.place path.names entry
  | none => readBelow path.names tree

def readIgnoreFiles (names : List String) (tree : FileTree) : IO FileTree := do
  let mut tree := tree
  for n in List.range (names.length + 1) do
    for file in Verdict.ignoreFiles do
      let at_ := names.take n ++ file
      if let some entry ← readEntry (placeOf at_) then
        tree := tree.place at_ entry
  return tree

/-- The picture of the files that a command line may ask for. -/
def readFiles (env : Environment) (line : CommandLine) : IO FileTree := do
  let cwd := line.directory env
  let asked := line.paths ++ line.settings.toList ++ line.config.toList ++ line.table.toList
  let mut tree ← readBelow cwd.names .empty
  for path in asked do
    let path := cwd.join ⟨path⟩
    unless path.startsWith cwd do
      tree ← readAt path tree
      tree ← readIgnoreFiles path.names tree
  readIgnoreFiles cwd.names tree

/-- Writes every file of the second tree that the first one does not have. -/
def writeChanges (before after : FileTree) : IO Unit := do
  for (names, entry) in after.entries do
    match entry, before.entry? names with
    | .file text _, some (.file old _) =>
      if text != old then IO.FS.writeFile (placeOf names) text
    | _, _ => pure ()

def usageMessage : UsageError → String
  | .missingPath => "no path is given"
  | .unknownArgument => "unknown argument"
  | .repeated => "an option is given twice"
  | .invalidValue => "an option has no value"
  | .unwantedValue => "an option takes no value"
  | .displayHelp =>
    "usage: weft [--fix] [--settings FILE] [--config PATH] [--worker CMD] [--table FILE] [--cwd DIR] [-v] PATH..."
  | .displayVersion => "weft 0.4.0"

def noWorkers : Behaviour where
  refusal _ := some "workers are not available"
  output _ _ := []

def start (arguments : List String) : IO UInt32 := do
  match CommandLine.parse arguments with
  | .error e =>
    match e with
    | .displayHelp | .displayVersion =>
      IO.println (usageMessage e)
      return 0
    | e =>
      IO.eprintln s!"weft: {usageMessage e}"
      return 2
  | .ok line =>
    let here ← IO.currentDir
    let env : Environment :=
      { cwd := ⟨here.toString⟩, script := "", workers := fun _ => noWorkers,
        grammars := Script.builtIn, clock := fun _ _ => 0, start := 0 }
    let before ← readFiles env line
    let outcome := run env line before
    writeChanges before outcome.files
    IO.print outcome.report
    match outcome.result with
    | .ok summary => return if summary.violations = 0 then 0 else 1
    | .error e =>
      IO.eprintln s!"weft: {e.message}"
      return 2

end ClassSort.Program

def main (arguments : List String) : IO UInt32 := ClassSort.Program.start arguments
