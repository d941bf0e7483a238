import ClassSort.Text.Slice

/-!
# Lines and columns

A byte offset is shown to people as a line and a column, both counted from one; columns count
characters. An offset inside a character belongs to that character, one past the end to the end.
-/

namespace ClassSort

/-- A place in a text, counted from one. -/
structure Position where
  line : Nat
  column : Nat
  deriving DecidableEq, Repr

namespace Position

def advance (p : Position) (c : Char) : Position :=
  if c == '\n' then ⟨p.line + 1, 1⟩ else ⟨p.line, p.column + 1⟩

def locate : List Char → Nat → Position → Position
  | [], _, p => p
  | c :: cs, n, p => if c.utf8Size ≤ n then locate cs (n - c.utf8Size) (p.advance c) else p

end Position

def positionAt (text : String) (offset : Nat) : Position :=
  Position.locate text.toList offset ⟨1, 1⟩

example : positionAt "a\nbé c\n" 5 = ⟨2, 3⟩ := by decide +kernel
example : positionAt "a\nbé c\n" 100 = ⟨3, 1⟩ := by decide +kernel

end ClassSort
