import ClassSort.Toml.Number
import ClassSort.Toml.Table
import ClassSort.Toml.Text

/-!
# Reading TOML

A document is a row of statements, each on a line of its own: headers, and keys with their values.
Arrays and tables in place may span lines, hold comments and be nested 80 levels deep.
-/

namespace ClassSort.Toml

/-- Skips blanks, line ends and comments; in a comment if `inside`. -/
def skipLines : Bool → List Char → Option (List Char)
  | _, [] => some []
  | _, '\n' :: rest => skipLines false rest
  | _, '\r' :: '\n' :: rest => skipLines false rest
  | true, c :: rest => if isControl c then none else skipLines true rest
  | false, '#' :: rest => skipLines true rest
  | false, c :: rest => if isSpace c then skipLines false rest else some (c :: rest)

def endStatement (cs : List Char) : Option (List Char) :=
  match cs.dropWhile isSpace with
  | [] => some []
  | '\n' :: rest => skipLines false rest
  | '\r' :: '\n' :: rest => skipLines false rest
  | '#' :: rest => skipLines true rest
  | _ => none

def isBareKey (c : Char) : Bool := c.isAlphanum || c == '-' || c == '_'

def readKey (cs : List Char) : Option (String × List Char) :=
  match cs.takeWhile isBareKey with
  | [] => readKeyText cs
  | key => some (String.ofList key, cs.dropWhile isBareKey)

def readKeys : Nat → List Char → Option (List String × String × List Char)
  | 0, _ => none
  | fuel + 1, cs => do
    let (key, rest) ← readKey (cs.dropWhile isSpace)
    match rest.dropWhile isSpace with
    | '.' :: rest =>
      let (path, last, rest) ← readKeys fuel rest
      some (key :: path, last, rest)
    | rest => some ([], key, rest)

def endsBare (c : Char) : Bool :=
  isSpace c || c == '\n' || c == '\r' || c == ',' || c == '#' || c == '[' || c == ']' || c == '\x7b' ||
    c == '\x7d'

def readBare (cs : List Char) : Option (Toml × List Char) := do
  let text := cs.takeWhile (!endsBare ·)
  let rest := cs.dropWhile (!endsBare ·)
  match Moment.isDate text, rest with
  | true, ' ' :: d :: more =>
    if Json.isDigit d then
      let time := (d :: more).takeWhile (!endsBare ·)
      some (← bare? (text ++ ' ' :: time), (d :: more).dropWhile (!endsBare ·))
    else some (← bare? text, rest)
  | _, _ => some (← bare? text, rest)

def readItems (value : List Char → Option (Toml × List Char)) :
    Nat → List Char → Option (List Toml × List Char)
  | 0, _ => none
  | fuel + 1, cs => do
    match ← skipLines false cs with
    | ']' :: rest => some ([], rest)
    | cs =>
      let (v, rest) ← value cs
      match ← skipLines false rest with
      | ',' :: rest =>
        let (vs, rest) ← readItems value fuel rest
        some (v :: vs, rest)
      | ']' :: rest => some ([v], rest)
      | _ => none

def readEntries (value : List Char → Option (Toml × List Char)) :
    Nat → Entries → List Char → Option (Entries × List Char)
  | 0, _, _ => none
  | fuel + 1, entries, cs => do
    match ← skipLines false cs with
    | '\x7d' :: rest => some (entries, rest)
    | cs =>
      let (path, key, rest) ← readKeys (cs.length + 1) cs
      match rest with
      | '=' :: rest =>
        let (v, rest) ← value (rest.dropWhile isSpace)
        let entries ← addEntry path key v .inline entries
        match ← skipLines false rest with
        | ',' :: rest => readEntries value fuel entries rest
        | '\x7d' :: rest => some (entries, rest)
        | _ => none
      | _ => none

/-- A value inside which arrays and tables may be nested `depth` levels deep. -/
def readValue : Nat → List Char → Option (Toml × List Char)
  | depth, cs =>
    match cs with
    | '[' :: rest =>
      match depth with
      | 0 => none
      | depth + 1 => do
        let (items, rest) ← readItems (readValue depth) (rest.length + 1) rest
        some (.array items, rest)
    | '\x7b' :: rest =>
      match depth with
      | 0 => none
      | depth + 1 => do
        let (entries, rest) ← readEntries (readValue depth) (rest.length + 1) [] rest
        some (.table .inline entries, rest)
    | '"' :: _ => do
      let (s, rest) ← readText cs
      some (.text s, rest)
    | '\'' :: _ => do
      let (s, rest) ← readText cs
      some (.text s, rest)
    | _ => readBare cs

def readStatement (d : Draft) : List Char → Option (Draft × List Char)
  | '[' :: '[' :: rest => do
    let (path, key, rest) ← readKeys (rest.length + 1) rest
    match rest with
    | ']' :: ']' :: rest => some (← d.enter openRow path key, rest)
    | _ => none
  | '[' :: rest => do
    let (path, key, rest) ← readKeys (rest.length + 1) rest
    match rest with
    | ']' :: rest => some (← d.enter openTable path key, rest)
    | _ => none
  | cs => do
    let (path, key, rest) ← readKeys (cs.length + 1) cs
    match rest with
    | '=' :: rest =>
      let (v, rest) ← readValue 80 (rest.dropWhile isSpace)
      some (← d.add path key v, rest)
    | _ => none

def readStatements : Nat → Draft → List Char → Option Draft
  | 0, _, _ => none
  | _ + 1, d, [] => some d
  | fuel + 1, d, cs => do
    let (d, rest) ← readStatement d cs
    readStatements fuel d (← endStatement rest)

/-- The entries of a document. A byte order mark in front is skipped. -/
def parse? (text : String) : Option Entries := do
  let cs := match text.toList with
    | '\ufeff' :: rest => rest
    | cs => cs
  let cs ← skipLines false cs
  some (← readStatements (cs.length + 1) .empty cs).root

end ClassSort.Toml
