import ClassSort.Json.Value

/-!
# Reading JSON

A reader takes what it understands off the front of a list of characters. Arrays and objects may
be nested 127 levels deep. Objects keep their fields as written; `canonical` merges repeats.
-/

namespace ClassSort.Json

def isSpace (c : Char) : Bool := c == ' ' || c == '\n' || c == '\r' || c == '\t'

def skipSpace (cs : List Char) : List Char := cs.dropWhile isSpace

def hexValue? (c : Char) : Option Nat :=
  let n := c.toNat
  if 48 ≤ n && n ≤ 57 then some (n - 48)
  else if 97 ≤ n && n ≤ 102 then some (n - 87)
  else if 65 ≤ n && n ≤ 70 then some (n - 55)
  else none

def readHex4 : List Char → Option (Nat × List Char)
  | a :: b :: c :: d :: rest => do
    let n := (← hexValue? a) * 4096 + (← hexValue? b) * 256 + (← hexValue? c) * 16 + (← hexValue? d)
    some (n, rest)
  | _ => none

/-- A code unit behind `\u`, with the second half of a pair where the first half stands. -/
def readUnit (cs : List Char) : Option (Char × List Char) := do
  let (n, rest) ← readHex4 cs
  if n < 0xd800 || 0xdfff < n then some (Char.ofNat n, rest)
  else if 0xdc00 ≤ n then none
  else
    match rest with
    | '\\' :: 'u' :: rest =>
      let (m, rest) ← readHex4 rest
      if m < 0xdc00 || 0xdfff < m then none
      else some (Char.ofNat (0x10000 + (n - 0xd800) * 1024 + (m - 0xdc00)), rest)
    | _ => none

def simpleEscape? (c : Char) : Option Char :=
  if c == '"' || c == '\\' || c == '/' then some c
  else if c == 'b' then some '\x08'
  else if c == 'f' then some '\x0c'
  else if c == 'n' then some '\n'
  else if c == 'r' then some '\r'
  else if c == 't' then some '\t'
  else none

/-- The rest of a string, behind its opening quote. `fuel` is the number of characters left. -/
def readChars : Nat → List Char → Option (List Char × List Char)
  | 0, _ => none
  | _ + 1, [] => none
  | _ + 1, '"' :: rest => some ([], rest)
  | fuel + 1, '\\' :: 'u' :: rest => do
    let (c, rest) ← readUnit rest
    let (cs, rest) ← readChars fuel rest
    some (c :: cs, rest)
  | fuel + 1, '\\' :: e :: rest => do
    let c ← simpleEscape? e
    let (cs, rest) ← readChars fuel rest
    some (c :: cs, rest)
  | fuel + 1, c :: rest =>
    if c.toNat < 0x20 || c == '\\' then none
    else do
      let (cs, rest) ← readChars fuel rest
      some (c :: cs, rest)

def readString (cs : List Char) : Option (String × List Char) := do
  let (inside, rest) ← readChars cs.length cs
  some (String.ofList inside, rest)

def isDigit (c : Char) : Bool := 48 ≤ c.toNat && c.toNat ≤ 57

def digitValue (c : Char) : Nat := c.toNat - 48

def u64Max : Nat := 0xffffffffffffffff

/-- Digits up to the point where the value would leave 64 bits, then what is left over. -/
def accumulate : Nat → Nat → List Char → Nat × Nat × List Char
  | n, count, c :: cs =>
    if isDigit c && n * 10 + digitValue c ≤ u64Max then accumulate (n * 10 + digitValue c) (count + 1) cs
    else (n, count, c :: cs)
  | n, count, [] => (n, count, [])

/-- A number from its leading digits and a power of ten. Both are rounded first and their product
or quotient is rounded again; a result beyond the format is refused. -/
def scale : Nat → Binary64 → Int → Option Binary64
  | 0, _, _ => none
  | fuel + 1, x, e =>
    if e.natAbs ≤ 308 then
      if 0 ≤ e then do x.mul (← Binary64.ofNat (Nat.pow 10 e.natAbs))
      else do x.div (← Binary64.ofNat (Nat.pow 10 e.natAbs))
    else if x.mantissa = 0 then some x
    else if 0 ≤ e then none
    else do scale fuel (← x.div (← Binary64.ofNat (Nat.pow 10 308))) (e + 308)

def makeFloat (negative : Bool) (significand : Nat) (e : Int) : Option Json := do
  let x ← scale 2000 (← Binary64.ofNat significand) (max e (-500000))
  some (float (x.withSign negative))

def readExponent (negative : Bool) (significand : Nat) (start : Int) (cs : List Char) :
    Option (Json × List Char) :=
  let (down, cs) :=
    match cs with
    | '+' :: rest => (false, rest)
    | '-' :: rest => (true, rest)
    | _ => (false, cs)
  let digits := cs.takeWhile isDigit
  let rest := cs.dropWhile isDigit
  if digits.isEmpty then none
  else
    let e := digits.foldl (fun n c => n * 10 + digitValue c) 0
    if 0x80000000 ≤ e then
      if significand ≠ 0 ∧ !down then none else some (float (Binary64.zero.withSign negative), rest)
    else do
      some (← makeFloat negative significand (if down then start - e else start + e), rest)

def readTail (negative : Bool) (significand : Nat) (e : Int) (cs : List Char) : Option (Json × List Char) :=
  match cs with
  | '.' :: rest =>
    let (n, count, rest) := accumulate significand 0 rest
    let more := rest.dropWhile isDigit
    if count = 0 && !rest.head?.any isDigit then none
    else if count = 0 then tailOfFraction n e more
    else tailOfFraction n (e - count) more
  | c :: rest =>
    if c == 'e' || c == 'E' then readExponent negative significand e rest
    else do some (← makeFloat negative significand e, cs)
  | [] => do some (← makeFloat negative significand e, [])
where
  tailOfFraction (n : Nat) (e : Int) : List Char → Option (Json × List Char)
    | c :: rest =>
      if c == 'e' || c == 'E' then readExponent negative n e rest
      else do some (← makeFloat negative n e, c :: rest)
    | [] => do some (← makeFloat negative n e, [])

def readNumber (negative : Bool) (cs : List Char) : Option (Json × List Char) :=
  match cs with
  | '0' :: d :: rest => if isDigit d then none else finish 0 (d :: rest)
  | c :: _ =>
    if isDigit c then
      let (n, _, rest) := accumulate 0 0 cs
      let more := rest.takeWhile isDigit
      if more.isEmpty then finish n rest
      else readTail negative n more.length (rest.dropWhile isDigit)
    else none
  | [] => none
where
  finish (n : Nat) (rest : List Char) : Option (Json × List Char) :=
    let fractional := rest.head?.any fun c => c == '.' || c == 'e' || c == 'E'
    if fractional then readTail negative n 0 rest
    else if !negative then some (int n, rest)
    else if n = 0 || 0x8000000000000000 < n then do some (← makeFloat true n 0, rest)
    else some (int (-(n : Int)), rest)

def readItems (value : List Char → Option (Json × List Char)) :
    Nat → List Char → Option (List Json × List Char)
  | 0, _ => none
  | fuel + 1, cs => do
    let (v, rest) ← value cs
    match skipSpace rest with
    | ',' :: rest =>
      let (vs, rest) ← readItems value fuel rest
      some (v :: vs, rest)
    | ']' :: rest => some ([v], rest)
    | _ => none

def readFields (value : List Char → Option (Json × List Char)) :
    Nat → List Char → Option (List (String × Json) × List Char)
  | 0, _ => none
  | fuel + 1, cs =>
    match skipSpace cs with
    | '"' :: rest => do
      let (name, rest) ← readString rest
      match skipSpace rest with
      | ':' :: rest =>
        let (v, rest) ← value rest
        match skipSpace rest with
        | ',' :: rest =>
          let (fields, rest) ← readFields value fuel rest
          some ((name, v) :: fields, rest)
        | '\x7d' :: rest => some ([(name, v)], rest)
        | _ => none
      | _ => none
    | _ => none

def readValue : Nat → List Char → Option (Json × List Char)
  | depth, cs =>
    match skipSpace cs with
    | 'n' :: 'u' :: 'l' :: 'l' :: rest => some (null, rest)
    | 't' :: 'r' :: 'u' :: 'e' :: rest => some (bool true, rest)
    | 'f' :: 'a' :: 'l' :: 's' :: 'e' :: rest => some (bool false, rest)
    | '"' :: rest => do
      let (s, rest) ← readString rest
      some (str s, rest)
    | '-' :: rest => readNumber true rest
    | '[' :: rest =>
      match depth with
      | 0 => none
      | depth + 1 =>
        match skipSpace rest with
        | ']' :: rest => some (arr [], rest)
        | _ => do
          let (items, rest) ← readItems (readValue depth) rest.length rest
          some (arr items, rest)
    | '\x7b' :: rest =>
      match depth with
      | 0 => none
      | depth + 1 =>
        match skipSpace rest with
        | '\x7d' :: rest => some (obj [], rest)
        | _ => do
          let (fields, rest) ← readFields (readValue depth) rest.length rest
          some (obj fields, rest)
    | cs => readNumber false cs

def parseRaw? (text : List Char) : Option Json := do
  let (v, rest) ← readValue 127 text
  if (skipSpace rest).isEmpty then some v else none

/-- Reads a text that holds one value and nothing else. -/
def parse? (text : String) : Option Json := (parseRaw? text.toList).map canonical

end ClassSort.Json
