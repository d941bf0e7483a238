import ClassSort.Files.Path
import ClassSort.Order.Key
import ClassSort.Text.Quoted

/-!
# What can go wrong

Every failure is a cause with the data that its wording needs. The wording is given once, here.
-/

namespace ClassSort

/-- A span of time in milliseconds, as messages show it: whole seconds and their fraction from one
second on, milliseconds below. -/
def showMillis (ms : Nat) : String :=
  if ms = 0 then "0ns"
  else if ms < 1000 then s!"{ms}ms"
  else
    let rest := ms % 1000
    let digits := if rest % 100 = 0 then [rest / 100]
      else if rest % 10 = 0 then [rest / 100, rest / 10 % 10]
      else [rest / 100, rest / 10 % 10, rest % 10]
    if rest = 0 then s!"{ms / 1000}s"
    else s!"{ms / 1000}.{String.join (digits.map toString)}s"

inductive OracleError where
  | spawn (command reason : String)
  | emptyCommand
  /-- Reading from or writing to the worker failed. -/
  | broken
  /-- A message is no JSON or has the wrong shape. -/
  | malformed
  | protocol (reason : String)
  | timeout (millis : Nat)
  | exited
  /-- The worker answered with an error. -/
  | remote (code : Int) (message : String)
  | table (path : Path) (reason : String)
  /-- Any other oracle's refusal, in its own words. -/
  | refused (reason : String)
  deriving DecidableEq, Repr

namespace OracleError

def message : OracleError → String
  | spawn command reason => s!"failed to spawn oracle worker `{command}`: {reason}"
  | emptyCommand => "oracle worker command is empty"
  | broken => "oracle worker pipe failed"
  | malformed => "invalid oracle message"
  | protocol reason => s!"protocol error: {reason}"
  | timeout millis => s!"oracle worker did not answer within {showMillis millis}"
  | exited => "oracle worker exited"
  | remote code message => s!"oracle worker error {code}: {message}"
  | table path reason => s!"failed to read order table {path.text}: {reason}"
  | refused reason => reason

def isFatal : OracleError → Bool
  | broken | malformed | protocol _ | timeout _ | exited => true
  | _ => false

end OracleError

inductive OrderError where
  | configNotFound (path : Path)
  | unreadable (path : Path) (reason : String)
  /-- A search from `start` reached `root` without finding a config. -/
  | noConfigBetween (start root : Path)
  | monorepoUnsupported (version : Nat)
  | oracle (cause : OracleError)
  | mismatch (expected got : Nat)
  | invalidKey (text : String)
  deriving DecidableEq, Repr

def OrderError.message : OrderError → String
  | configNotFound path => s!"config file not found: {path.text}"
  | unreadable path reason => s!"I/O error reading {path.text}: {reason}"
  | noConfigBetween start root =>
    "unable to find config file: `monorepo` is enabled, yet no config file was found between " ++
      s!"{start.text} and {root.text}; make sure the package or one of its parents has a tailwind config file"
  | monorepoUnsupported version =>
    s!"the `monorepo` option is not supported for framework version {version}"
  | oracle cause => s!"ranking oracle failed: {cause.message}"
  | mismatch expected got => s!"ranking oracle returned {got} entries for {expected} classes"
  | invalidKey text => s!"invalid order key: {quoted text}"

def OrderKey.parse (text : String) : Except OrderError OrderKey :=
  match parse? text with
  | some key => .ok key
  | none => .error (.invalidKey text)

end ClassSort
