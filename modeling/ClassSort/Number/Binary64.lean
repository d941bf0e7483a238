/-!
# Binary floating-point numbers

The finite numbers of the 64-bit binary format, as exact values `mantissa * 2 ^ exponent`. Every
operation takes the exact result as a quotient of natural numbers and rounds it once, to the
nearest number of the format and from a tie to the even mantissa.
-/

namespace ClassSort

/-- A finite number of the format. -/
structure Binary64 where
  negative : Bool
  mantissa : Nat
  exponent : Int
  deriving DecidableEq, Repr

namespace Binary64

def zero : Binary64 := ⟨false, 0, -1074⟩

def floorLog2 (num den : Nat) : Int :=
  let e : Int := (Nat.log2 num : Int) - Nat.log2 den
  if den * Nat.pow 2 e.toNat ≤ num * Nat.pow 2 (-e).toNat then e else e - 1

/-- The number of the format nearest to `num / den`; `none` where it is too large. -/
def ofRatio (num den : Nat) : Option Binary64 :=
  if num = 0 then some zero
  else
    let q : Int := max (floorLog2 num den - 52) (-1074)
    let n := num * Nat.pow 2 (-q).toNat
    let d := den * Nat.pow 2 q.toNat
    let low := n / d
    let rest := n % d
    let up := decide (d < 2 * rest) || (2 * rest == d && low % 2 == 1)
    let m := if up then low + 1 else low
    let (m, q) := if m = Nat.pow 2 53 then (Nat.pow 2 52, q + 1) else (m, q)
    if 971 < q then none else some ⟨false, m, q⟩

def ofNat (n : Nat) : Option Binary64 := ofRatio n 1

def ofDecimal (digits : Nat) (exponent : Int) : Option Binary64 :=
  ofRatio (digits * Nat.pow 10 exponent.toNat) (Nat.pow 10 (-exponent).toNat)

def mul (a b : Binary64) : Option Binary64 :=
  let e := a.exponent + b.exponent
  ofRatio (a.mantissa * b.mantissa * Nat.pow 2 e.toNat) (Nat.pow 2 (-e).toNat)

def div (a b : Binary64) : Option Binary64 :=
  let e := a.exponent - b.exponent
  ofRatio (a.mantissa * Nat.pow 2 e.toNat) (b.mantissa * Nat.pow 2 (-e).toNat)

def withSign (negative : Bool) (a : Binary64) : Binary64 := { a with negative }

end Binary64

end ClassSort
