import ClassSort.Number.Binary64
import ClassSort.Toml.Moment
import ClassSort.Toml.Value

/-!
# Bare values

Numbers, truth values, dates and times are written without quotes. Digits may have single
underscores between them. Whole numbers fit 64 bits, with or without a sign; a finite number that
the binary format has no room for is refused.
-/

namespace ClassSort.Toml

def digits? (isDigit : Char → Bool) : List Char → Option (List Char)
  | [] => none
  | [c] => if isDigit c then some [c] else none
  | c :: '_' :: d :: rest => if isDigit c then (digits? isDigit (d :: rest)).map (c :: ·) else none
  | c :: rest => if isDigit c then (digits? isDigit rest).map (c :: ·) else none

def valueOf (base : Nat) (digits : List Char) : Nat :=
  digits.foldl (fun n c => n * base + (Json.hexValue? c).getD 0) 0

/-- Decimal digits of a whole part, which has no needless zero in front. -/
def whole? (cs : List Char) : Option (List Char) := do
  match ← digits? Json.isDigit cs with
  | '0' :: _ :: _ => none
  | digits => some digits

def ofInteger? (n : Int) : Option Toml :=
  if -0x8000000000000000 ≤ n ∧ n < 0x10000000000000000 then some (.int n) else none

def based? (base : Nat) (cs : List Char) : Option Toml := do
  let isDigit (c : Char) : Bool := (Json.hexValue? c).any (· < base)
  ofInteger? (valueOf base (← digits? isDigit cs))

def exponent? : List Char → Option Int
  | '-' :: cs => do some (-(valueOf 10 (← digits? Json.isDigit cs) : Int))
  | '+' :: cs => do some (valueOf 10 (← digits? Json.isDigit cs))
  | cs => do some (valueOf 10 (← digits? Json.isDigit cs))

/-- The number `digits * 10 ^ e`; exponents that leave no doubt are cut short. -/
def ofDecimal? (digits : List Char) (e : Int) : Option Binary64 :=
  let n := valueOf 10 digits
  if n = 0 then some .zero
  else if 400 < e then none
  else Binary64.ofDecimal n (max e (-(digits.length : Int) - 400))

def isExponentMark (c : Char) : Bool := c == 'e' || c == 'E'

def real? (negative : Bool) (cs : List Char) : Option Toml := do
  let mantissa := cs.takeWhile (!isExponentMark ·)
  let whole ← whole? (mantissa.takeWhile (· != '.'))
  let fraction ← match mantissa.dropWhile (· != '.') with
    | [] => some []
    | _ :: rest => digits? Json.isDigit rest
  let e ← match cs.dropWhile (!isExponentMark ·) with
    | [] => some 0
    | _ :: rest => exponent? rest
  some (.float ((← ofDecimal? (whole ++ fraction) (e - fraction.length)).withSign negative))

def decimal? (negative : Bool) (cs : List Char) : Option Toml :=
  if cs == "inf".toList || cs == "nan".toList then some .nonFinite
  else if cs.any fun c => c == '.' || isExponentMark c then real? negative cs
  else do
    let n : Int := valueOf 10 (← whole? cs)
    ofInteger? (if negative then -n else n)

def bare? (cs : List Char) : Option Toml :=
  if cs == "true".toList then some (.bool true)
  else if cs == "false".toList then some (.bool false)
  else
    match cs with
    | '+' :: rest => decimal? false rest
    | '-' :: rest => decimal? true rest
    | '0' :: 'x' :: rest => based? 16 rest
    | '0' :: 'o' :: rest => based? 8 rest
    | '0' :: 'b' :: rest => based? 2 rest
    | _ =>
      match Moment.ofChars? cs with
      | some shown => some (.moment (String.ofList shown))
      | none => decimal? false cs

end ClassSort.Toml
