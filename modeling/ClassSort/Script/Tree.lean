import ClassSort.Text.Span

/-!
# Syntax trees

What a parser finds in a script, as far as class texts can depend on it. A tree knows which form of
the language it is, where it stands and which trees lie inside it, in the order of the text;
comments, operators and punctuation are no trees. A script with errors has trees as well, and some
of them are `broken`. Positions count from the start of the script.
-/

namespace ClassSort.Script

inductive Dialect where
  | javaScript
  | typeScript
  | tsx
  deriving DecidableEq, Repr

namespace Dialect

def name : Dialect → String
  | javaScript => "javascript"
  | typeScript => "typescript"
  | tsx => "tsx"

def hasTypes : Dialect → Bool
  | javaScript => false
  | _ => true

def hasElements : Dialect → Bool
  | typeScript => false
  | _ => true

end Dialect

/-- What a tree is. Forms that class texts do not depend on are `other`. -/
inductive Form where
  | string
  | identifier
  /-- A plain name behind a point or in front of a colon. -/
  | propertyName
  | array
  | object
  /-- Its trees are the substitutions. -/
  | template
  | substitution
  /-- A key and a value. -/
  | pair
  | shorthand
  /-- A name, and whatever else the method consists of. -/
  | method
  | spread
  /-- A name in brackets. -/
  | computed
  /-- Parentheses, and type assertions behind an expression. -/
  | grouping
  | binary
  | logical
  | conditional
  /-- An object and the name behind the point. -/
  | member
  /-- What is called first, the arguments or the template last. -/
  | call
  | arguments
  /-- The name first, and last the value if there is one. -/
  | declarator (initialized : Bool)
  | expressionStatement
  /-- What could not be parsed, with the trees that were found inside it. -/
  | broken
  | other
  deriving DecidableEq, Repr

inductive Tree where
  | node (form : Form) (span : Span) (children : List Tree)
  deriving Repr

namespace Tree

def form : Tree → Form
  | node f _ _ => f

def span : Tree → Span
  | node _ s _ => s

def children : Tree → List Tree
  | node _ _ cs => cs

mutual

def WellNested : Tree → Prop
  | node _ s cs => s.start ≤ s.stop ∧ WellNestedFrom s.start s.stop cs

/-- Trees that follow one another between two positions. -/
def WellNestedFrom : Nat → Nat → List Tree → Prop
  | start, stop, [] => start ≤ stop
  | start, stop, t :: ts => start ≤ t.span.start ∧ WellNested t ∧ WellNestedFrom t.span.stop stop ts

end

end Tree

end ClassSort.Script
