import ClassSort.Text.Blank

/-!
# Order keys

The place of a class in the framework's order is an integer of any size: frameworks with many
layers and variants shift bits well past 64. A class that the framework does not know has no key
and goes before every class that has one.
-/

namespace ClassSort

abbrev OrderKey := Int

namespace OrderKey

def digit? (c : Char) : Option Nat :=
  if '0' ≤ c ∧ c ≤ '9' then some (c.toNat - '0'.toNat) else none

def digits? : Nat → List Char → Option Nat
  | n, [] => some n
  | n, '_' :: cs => digits? n cs
  | n, c :: cs => do digits? (10 * n + (← digit? c)) cs

def magnitude? : List Char → Option Nat
  | '+' :: c :: cs => do digits? (← digit? c) cs
  | c :: cs => do digits? (← digit? c) cs
  | [] => none

def integer? : List Char → Option Int
  | '-' :: '+' :: _ => none
  | '-' :: cs => (magnitude? cs).map fun n => -(n : Int)
  | cs => (magnitude? cs).map fun n => (n : Int)

/-- Reads a key: white space around it and letters `n` behind it are ignored. -/
def parse? (text : String) : Option OrderKey :=
  integer? (dropEnd (· == 'n') (trimChars text.toList))

def print (key : OrderKey) : String :=
  match key with
  | .ofNat n => String.ofList (Nat.toDigits 10 n)
  | .negSucc n => String.ofList ('-' :: Nat.toDigits 10 (n + 1))

/-- Classes without a key go before those with one; keys go by size. -/
def compare : Option OrderKey → Option OrderKey → Ordering
  | none, none => .eq
  | none, some _ => .lt
  | some _, none => .gt
  | some a, some b => if a < b then .lt else if a = b then .eq else .gt

end OrderKey

end ClassSort
