import ClassSort.Json.Read

/-!
# Dates and times

A date, a time of day, or a date with a time and perhaps its distance from universal time. They are
checked and shown again in one way: a `T` between date and time, a fraction of at most nine digits
without zeros at its end.
-/

namespace ClassSort.Toml.Moment

def number? (count : Nat) (cs : List Char) : Option (Nat × List Char) :=
  let digits := cs.take count
  if digits.length = count ∧ digits.all Json.isDigit then
    some (digits.foldl (fun n c => n * 10 + Json.digitValue c) 0, cs.drop count)
  else none

def two (n : Nat) : List Char := [Nat.digitChar (n / 10), Nat.digitChar (n % 10)]

def isLeap (year : Nat) : Bool := year % 4 = 0 && (year % 100 ≠ 0 || year % 400 = 0)

def monthDays (year month : Nat) : Nat :=
  if month = 2 then if isLeap year then 29 else 28
  else if month = 4 ∨ month = 6 ∨ month = 9 ∨ month = 11 then 30
  else 31

def date? (cs : List Char) : Option (List Char × List Char) := do
  let (year, rest) ← number? 4 cs
  match rest with
  | '-' :: rest =>
    let (month, rest) ← number? 2 rest
    match rest with
    | '-' :: rest =>
      let (day, rest) ← number? 2 rest
      if 1 ≤ month ∧ month ≤ 12 ∧ 1 ≤ day ∧ day ≤ monthDays year month then
        some (cs.take 10, rest)
      else none
    | _ => none
  | _ => none

def showFraction (digits : List Char) : List Char :=
  let kept := ((digits.take 9).reverse.dropWhile (· == '0')).reverse
  '.' :: if kept.isEmpty then ['0'] else kept

def seconds? : List Char → Option (List Char × List Char)
  | ':' :: rest => do
    let (second, rest) ← number? 2 rest
    if 60 < second then none
    else
      match rest with
      | '.' :: rest =>
        let digits := rest.takeWhile Json.isDigit
        if digits.isEmpty then none
        else some (':' :: two second ++ showFraction digits, rest.dropWhile Json.isDigit)
      | _ => some (':' :: two second, rest)
  | rest => some ([], rest)

def time? (cs : List Char) : Option (List Char × List Char) := do
  let (hour, rest) ← number? 2 cs
  match rest with
  | ':' :: rest =>
    let (minute, rest) ← number? 2 rest
    if 23 < hour ∨ 59 < minute then none
    else
      let (shown, rest) ← seconds? rest
      some (two hour ++ ':' :: two minute ++ shown, rest)
  | _ => none

/-- The distance from universal time, if it is given and nothing follows it. -/
def offset? : List Char → Option (List Char)
  | [] => some []
  | ['Z'] => some ['Z']
  | ['z'] => some ['Z']
  | sign :: rest => do
    if sign != '+' && sign != '-' then failure
    let (hours, rest) ← number? 2 rest
    match rest with
    | ':' :: rest =>
      let (minutes, rest) ← number? 2 rest
      let total := hours * 60 + minutes
      if rest.isEmpty && total ≤ 24 * 60 then
        let sign := if total = 0 then '+' else sign
        some (sign :: two (total / 60) ++ ':' :: two (total % 60))
      else none
    | _ => none

def isDate (cs : List Char) : Bool :=
  match date? cs with
  | some (_, []) => true
  | _ => false

/-- The whole text as a date, a time or both, shown. -/
def ofChars? (cs : List Char) : Option (List Char) :=
  match date? cs with
  | some (date, []) => some date
  | some (date, c :: rest) =>
    if c == 'T' || c == 't' || c == ' ' then do
      let (time, rest) ← time? rest
      some (date ++ 'T' :: time ++ (← offset? rest))
    else none
  | none =>
    match time? cs with
    | some (time, []) => some time
    | _ => none

end ClassSort.Toml.Moment
