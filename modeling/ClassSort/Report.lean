import ClassSort.Edit
import ClassSort.Text.Position

/-!
# Reports

Every finding is a line of its own: where it starts, what it says and the rule it comes from.
-/

namespace ClassSort

namespace Violation

/-- The line of a finding in a file that is shown as `name`. -/
def reportLine (name source : String) (v : Violation) : String :=
  let p := positionAt source v.range.start
  s!"{name}:{p.line}:{p.column}: {v.message} [{v.rule}]\n"

end Violation

def report (name source : String) (violations : List Violation) : String :=
  String.join (violations.map (·.reportLine name source))

end ClassSort
