import ClassSort.Number.Binary64

/-!
# The shortest decimal that reads back

A floating-point number is written with the fewest decimal digits that still round to it, and of
the decimals with that many digits with the one nearest to it.
-/

namespace ClassSort.Binary64

def floorLog10 (num den : Nat) : Nat → Int → Int
  | 0, p => p
  | fuel + 1, p =>
    if den * Nat.pow 10 (p + 1).toNat ≤ num * Nat.pow 10 (-(p + 1)).toNat then
      floorLog10 num den fuel (p + 1)
    else p

def shortest (a : Binary64) : Nat × Int :=
  let q := a.exponent - 2
  let num := 4 * a.mantissa * Nat.pow 2 q.toNat
  let den := Nat.pow 2 (-q).toNat
  let step := Nat.pow 2 q.toNat
  let below := if a.mantissa = Nat.pow 2 52 ∧ -1074 < a.exponent then step else 2 * step
  let low := num - below
  let high := num + 2 * step
  let even := a.mantissa % 2 == 0
  let top := floorLog10 num den 700 (-330)
  go num den low high even top 17 1
where
  /-- Tries one digit more each time; with 17 there is always a hit. -/
  go (num den low high : Nat) (even : Bool) (top : Int) : Nat → Nat → Nat × Int
    | 0, _ => (0, 0)
    | fuel + 1, count =>
      let unit := top - ((count : Int) - 1)
      let up := Nat.pow 10 unit.toNat
      let down := Nat.pow 10 (-unit).toNat
      let digits := num * down / (den * up)
      let inside (d : Nat) : Bool :=
        let x := d * den * up
        if even then low * down ≤ x && x ≤ high * down else low * down < x && x < high * down
      let gapBelow := num * down - digits * den * up
      let gapAbove := (digits + 1) * den * up - num * down
      match inside digits, inside (digits + 1) with
      | true, true =>
        if gapBelow < gapAbove || (gapBelow == gapAbove && digits % 2 == 0) then (digits, unit)
        else (digits + 1, unit)
      | true, false => (digits, unit)
      | false, true => (digits + 1, unit)
      | false, false => go num den low high even top fuel (count + 1)

def strip : Nat → Nat × Int → Nat × Int
  | 0, d => d
  | fuel + 1, (digits, unit) =>
    if digits ≠ 0 ∧ digits % 10 = 0 then strip fuel (digits / 10, unit + 1) else (digits, unit)

/-- Numbers from `1e-5` up to `1e16` are written with a point, others with an exponent; a whole
number keeps one zero behind the point. -/
def print (a : Binary64) : String :=
  let body : List Char :=
    if a.mantissa = 0 then ['0', '.', '0']
    else
      let (digits, unit) := strip 20 (shortest a)
      let ds := Nat.toDigits 10 digits
      let point : Int := ds.length + unit
      if 0 ≤ unit ∧ point ≤ 16 then ds ++ List.replicate unit.toNat '0' ++ ['.', '0']
      else if 0 < point ∧ point ≤ 16 then ds.take point.toNat ++ ['.'] ++ ds.drop point.toNat
      else if -5 < point ∧ point ≤ 0 then ['0', '.'] ++ List.replicate (-point).toNat '0' ++ ds
      else
        let e := point - 1
        let exponent := if e < 0 then '-' :: Nat.toDigits 10 e.natAbs else Nat.toDigits 10 e.natAbs
        match ds with
        | [d] => d :: 'e' :: exponent
        | d :: rest => d :: '.' :: rest ++ 'e' :: exponent
        | [] => []
  String.ofList (if a.negative then '-' :: body else body)

end ClassSort.Binary64
