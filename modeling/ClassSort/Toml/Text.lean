import ClassSort.Json.Read
import ClassSort.Toml.Value

/-!
# TOML strings

Strings in double quotes have escapes, those in single quotes have none. Three quotes enclose
several lines: a line end behind the opening quotes is dropped, and up to two quotes in front of the
closing ones belong to the text.
-/

namespace ClassSort.Toml

/-- Characters that no text may hold as they are: all controls but the tab. -/
def isControl (c : Char) : Bool := (c.toNat < 0x20 && c != '\t') || c.toNat == 0x7f

def isSpace (c : Char) : Bool := c == ' ' || c == '\t'

def readCode (count : Nat) (cs : List Char) : Option (Char × List Char) := do
  let digits := cs.take count
  let values ← digits.mapM Json.hexValue?
  let n := values.foldl (fun n d => n * 16 + d) 0
  if digits.length = count ∧ n.isValidChar then some (Char.ofNat n, cs.drop count) else none

def readEscape : List Char → Option (Char × List Char)
  | 'b' :: rest => some ('\x08', rest)
  | 't' :: rest => some ('\t', rest)
  | 'n' :: rest => some ('\n', rest)
  | 'f' :: rest => some ('\x0c', rest)
  | 'r' :: rest => some ('\r', rest)
  | 'e' :: rest => some ('\x1b', rest)
  | '"' :: rest => some ('"', rest)
  | '\\' :: rest => some ('\\', rest)
  | 'x' :: rest => readCode 2 rest
  | 'u' :: rest => readCode 4 rest
  | 'U' :: rest => readCode 8 rest
  | _ => none

/-- The rest of a string of one line. `fuel` is the number of characters left. -/
def readLine (quote : Char) : Nat → List Char → Option (List Char × List Char)
  | 0, _ => none
  | _ + 1, [] => none
  | fuel + 1, c :: rest =>
    if c == quote then some ([], rest)
    else if c == '\\' && quote == '"' then do
      let (c, rest) ← readEscape rest
      let (cs, rest) ← readLine quote fuel rest
      some (c :: cs, rest)
    else if isControl c then none
    else do
      let (cs, rest) ← readLine quote fuel rest
      some (c :: cs, rest)

def dropLineEnd : List Char → List Char
  | '\n' :: rest => rest
  | '\r' :: '\n' :: rest => rest
  | cs => cs

def dropBlankLines : List Char → List Char
  | '\r' :: '\n' :: rest => dropBlankLines rest
  | c :: rest => if isSpace c || c == '\n' then dropBlankLines rest else c :: rest
  | [] => []

def endsLine (cs : List Char) : Bool :=
  match cs.dropWhile isSpace with
  | '\n' :: _ => true
  | '\r' :: '\n' :: _ => true
  | _ => false

def readLines (quote : Char) : Nat → List Char → Option (List Char × List Char)
  | 0, _ => none
  | _ + 1, [] => none
  | fuel + 1, c :: rest =>
    if c == quote then
      let run := (c :: rest).takeWhile (· == quote)
      if 3 ≤ run.length then
        let extra := min (run.length - 3) 2
        some (List.replicate extra quote, (c :: rest).drop (3 + extra))
      else keep fuel c rest
    else if c == '\\' && quote == '"' then
      if endsLine rest then readLines quote fuel (dropBlankLines rest)
      else do
        let (c, rest) ← readEscape rest
        keep fuel c rest
    else if c == '\r' && rest.head? == some '\n' then keep fuel c rest
    else if isControl c && c != '\n' then none
    else keep fuel c rest
where
  keep (fuel : Nat) (c : Char) (rest : List Char) : Option (List Char × List Char) := do
    let (cs, rest) ← readLines quote fuel rest
    some (c :: cs, rest)

def readKeyText : List Char → Option (String × List Char)
  | c :: rest =>
    if c == '"' || c == '\'' then do
      let (cs, rest) ← readLine c (rest.length + 1) rest
      some (String.ofList cs, rest)
    else none
  | [] => none

def readText : List Char → Option (String × List Char)
  | a :: b :: c :: rest =>
    if (a == '"' || a == '\'') && a == b && b == c then do
      let rest := dropLineEnd rest
      let (cs, rest) ← readLines a (rest.length + 1) rest
      some (String.ofList cs, rest)
    else readKeyText (a :: b :: c :: rest)
  | cs => readKeyText cs

end ClassSort.Toml
