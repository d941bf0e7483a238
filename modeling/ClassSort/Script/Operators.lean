import ClassSort.Script.Grammar

/-!
# Operators between expressions

Operands and operators are read from the left. An operator takes the operands in front of it as far
as they bind at least as tightly, and of two that bind equally the left one goes first. A type
behind an expression takes all of them.
-/

namespace ClassSort.Script

/-- An operator between two expressions; a higher level binds more tightly. -/
structure Operator where
  text : String
  level : Nat
  deriving DecidableEq, Repr

namespace Operator

def signs : List Operator :=
  [⟨">>>", 10⟩, ⟨"===", 7⟩, ⟨"!==", 7⟩, ⟨"**", 13⟩, ⟨"&&", 3⟩, ⟨"||", 2⟩, ⟨"??", 1⟩, ⟨"<<", 10⟩,
    ⟨">>", 10⟩, ⟨"<=", 9⟩, ⟨">=", 9⟩, ⟨"==", 7⟩, ⟨"!=", 7⟩, ⟨"*", 12⟩, ⟨"/", 12⟩, ⟨"%", 12⟩,
    ⟨"+", 11⟩, ⟨"-", 11⟩, ⟨"<", 9⟩, ⟨">", 9⟩, ⟨"&", 6⟩, ⟨"^", 5⟩, ⟨"|", 4⟩]

def words : List Operator := [⟨"instanceof", 8⟩, ⟨"in", 8⟩]

def isLogical (o : Operator) : Bool := o.text == "&&" || o.text == "||" || o.text == "??"

def fromRight (o : Operator) : Bool := o.text == "**"

def assigns (o : Operator) : Bool :=
  !(["===", "!==", "<=", ">=", "==", "!=", "<", ">"].contains o.text)

def precedes (o next : Operator) : Bool :=
  decide (next.level < o.level) || (o.level == next.level && !next.fromRight)

def apply (o : Operator) (left right : Tree) : Tree :=
  .node (if o.isLogical then .logical else .binary) ⟨left.span.start, right.span.stop⟩ [left, right]

/-- What stands in front of an operand: expressions that still wait for their right side. -/
abbrev Waiting := List (Tree × Operator)

def settle (p : Operator → Bool) : Waiting → Tree → Waiting × Tree
  | (left, o) :: waiting, operand =>
    if p o then settle p waiting (o.apply left operand) else ((left, o) :: waiting, operand)
  | [], operand => ([], operand)

def settleAll (waiting : Waiting) (operand : Tree) : Tree :=
  waiting.foldl (fun operand (left, o) => o.apply left operand) operand

open Reader

/-- An operator, unless it is a part of an assignment or of a longer sign. -/
def read : Reader Operator := do
  let cs ← rest
  match signs.find? fun o => o.text.toList.isPrefixOf cs with
  | some o =>
    check !((o.assigns && (cs.drop o.text.length).head? == some '=') || (← sees "++") || (← sees "--"))
    token o.text.length
    return o
  | none =>
    let name := nameAt cs
    match words.find? fun o => o.text.toList == name with
    | some o =>
      token name.length
      return o
    | none => failure

end Operator

namespace Grammar

open Reader

variable (g : Grammar)

def assertedType : Reader (List Tree) := do
  check (g.dialect.hasTypes && !(← newline))
  keyword "as" <|> keyword "satisfies"
  g.parse .type

def assertedValue : Reader Unit := do
  check (g.dialect.hasTypes && !(← newline) && !(← sees "!="))
  sign "!"

def operations (suffixes : Tree → Reader Tree) : Nat → Operator.Waiting → Tree → Reader Tree
  | 0, _, _ => failure
  | fuel + 1, waiting, operand => do
    if let some o ← attempt Operator.read then
      let (waiting, left) := Operator.settle (·.precedes o) waiting operand
      let right ← g.one .unary
      operations suffixes fuel ((left, o) :: waiting) right
    else if let some types ← attempt g.assertedType then
      let whole := Operator.settleAll waiting operand
      let asserted ← node .grouping whole.span.start (whole :: types)
      operations suffixes fuel [] asserted
    else if ← taken g.assertedValue then
      let whole := Operator.settleAll waiting operand
      let asserted ← node .grouping whole.span.start [whole]
      operations suffixes fuel [] (← suffixes asserted)
    else return Operator.settleAll waiting operand

end Grammar

end ClassSort.Script
