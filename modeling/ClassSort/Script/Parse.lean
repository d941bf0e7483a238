import ClassSort.Script.Parser
import ClassSort.Script.Statements
import ClassSort.Text.Slice

/-!
# Parsing a script

The parts of the grammar put together. Each goal inside another one is parsed with one less to
spare, and there is enough to spare for every text: no phrase asks for more goals in a row than a
few without reading a character.
-/

namespace ClassSort.Script

open Reader

namespace Grammar

def step (g : Grammar) : Goal → Reader (List Tree)
  | .statement => g.statementRule
  | .expression => do return [← g.expressionRule]
  | .assignment resultTypes => do return [← g.assignmentRule resultTypes]
  | .unary => do return [← g.unary]
  | .element => do return [← g.element]
  | .type => g.type
  | .binding => do return [← g.binding]
  | .parameters => g.parameters

def answer (dialect : Dialect) : Nat → Goal → Reader (List Tree)
  | 0, _ => failure
  | depth + 1, goal => step ⟨dialect, depth, answer dialect depth⟩ goal

end Grammar

def skipHashbang : Reader Unit := do
  if ← sees "#!" then bare ((← rest).takeWhile (!isLineEnd ·)).length

def program (dialect : Dialect) (depth : Nat) : Reader (List Tree) := do
  skipHashbang
  settle
  let statements ← many depth (Grammar.answer dialect depth .statement)
  let _ ← many depth Grammar.documentComment
  check (← rest).isEmpty
  return statements.flatten

def parse? (dialect : Dialect) (text : List Char) : Option (List Tree) :=
  ((program dialect (16 * text.length + 64)).run (.start text)).map (·.1)

/-- The library of these grammars. It finds no trees in a script with errors but the script itself. -/
def builtIn : Grammars where
  refusal _ := none
  trees? dialect text := some ((parse? dialect text).getD [.node .broken ⟨0, byteLength text⟩ []])

end ClassSort.Script
