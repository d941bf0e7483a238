import ClassSort.Script.Tree
import ClassSort.Text.Slice

/-!
# Reading a script

A reader takes what it understands off the front of the text and may be tried again otherwise. It
stands in front of a token: blanks and comments behind a token are skipped with it, except inside
templates and elements, where they are text. Semicolons may be left out at the end of a line, so a
cursor remembers whether a line ended in front of it.
-/

namespace ClassSort.Script

def isLineEnd (c : Char) : Bool := c == '\n' || c == '\u2028' || c == '\u2029'

def isSpace (c : Char) : Bool :=
  let n := c.toNat
  (9 ≤ n && n ≤ 13) || n == 0x20 || n == 0x85 || n == 0xa0 || n == 0x1680 ||
    (0x2000 ≤ n && n ≤ 0x200b) || n == 0x2028 || n == 0x2029 || n == 0x202f || n == 0x205f ||
    n == 0x2060 || n == 0x3000 || n == 0xfeff

def isDigit (c : Char) : Bool := '0' ≤ c && c ≤ '9'

def isHexDigit (c : Char) : Bool := isDigit c || ('a' ≤ c && c ≤ 'f') || ('A' ≤ c && c ≤ 'F')

def isNamePart (c : Char) : Bool :=
  !(c.toNat < 0x20 || isSpace c || ":;`\"'@#.,|^&<=>+-*/\\%?!~()[]\x7b\x7d".toList.contains c)

structure Cursor where
  rest : List Char
  offset : Nat
  /-- Where the last token ended. -/
  last : Nat
  /-- A line ended behind the last token. -/
  newline : Bool

/-- What a skip over blanks is inside of. -/
inductive Gap where
  | blank
  | lineComment
  | blockComment

def skipGap : Gap → List Char → Nat → Bool → List Char × Nat × Bool
  | .blank, '/' :: '/' :: cs, n, newline => skipGap .lineComment cs (n + 2) newline
  | .blank, '/' :: '*' :: cs, n, newline => skipGap .blockComment cs (n + 2) newline
  | .blank, c :: cs, n, newline =>
    if isSpace c then skipGap .blank cs (n + c.utf8Size) (newline || isLineEnd c)
    else (c :: cs, n, newline)
  | .lineComment, c :: cs, n, newline =>
    let ended := isLineEnd c || c == '\r'
    skipGap (if ended then .blank else .lineComment) cs (n + c.utf8Size) (newline || isLineEnd c)
  | .blockComment, '*' :: '/' :: cs, n, newline => skipGap .blank cs (n + 2) newline
  | .blockComment, c :: cs, n, newline =>
    skipGap .blockComment cs (n + c.utf8Size) (newline || isLineEnd c)
  | _, [], n, newline => ([], n, newline)

namespace Cursor

def start (text : List Char) : Cursor := ⟨text, 0, 0, false⟩

/-- The cursor behind `n` more characters, in front of whatever follows. -/
def ahead (c : Cursor) (n : Nat) : Cursor :=
  let stop := c.offset + byteLength (c.rest.take n)
  ⟨c.rest.drop n, stop, stop, false⟩

def settled (c : Cursor) : Cursor :=
  let (rest, offset, newline) := skipGap .blank c.rest c.offset c.newline
  ⟨rest, offset, c.last, newline⟩

end Cursor

abbrev Reader := StateT Cursor Option

namespace Reader

variable {α : Type}

/-- Takes `n` characters and what may be skipped behind them. -/
def token (n : Nat) : Reader Unit := modify fun c => (c.ahead n).settled

def bare (n : Nat) : Reader Unit := modify fun c => c.ahead n

def settle : Reader Unit := modify Cursor.settled

def check (holds : Bool) : Reader Unit := if holds then pure () else failure

def rest : Reader (List Char) := do return (← get).rest

def mark : Reader Nat := do return (← get).offset

def newline : Reader Bool := do return (← get).newline

def next? : Reader (Option Char) := do return (← get).rest.head?

def sees (text : String) : Reader Bool := do return text.toList.isPrefixOf (← get).rest

def sign (text : String) : Reader Unit := do
  check (← sees text)
  token text.length

def bareSign (text : String) : Reader Unit := do
  check (← sees text)
  bare text.length

def attempt (p : Reader α) : Reader (Option α) := (some <$> p) <|> pure none

def taken (p : Reader α) : Reader Bool := (do let _ ← p; return true) <|> pure false

def ahead (p : Reader α) : Reader Bool := fun c => some ((p c).isSome, c)

def many (fuel : Nat) (p : Reader α) : Reader (List α) :=
  match fuel with
  | 0 => pure []
  | fuel + 1 => (do let a ← p; let as ← many fuel p; return a :: as) <|> pure []

/-- A tree that began at `start` and ends behind the last token. -/
def node (form : Form) (start : Nat) (children : List Tree) : Reader Tree := do
  return .node form ⟨start, (← get).last⟩ children

/-- The end of a statement: a semicolon, or a place where it may be left out. -/
def semicolon : Reader Unit := do
  if ← sees ";" then token 1
  else check ((← newline) || (← rest).isEmpty || (← sees "\x7d"))

end Reader

/-- What a name is written with: its letters, and escapes that stand for letters by their number. -/
def nameChars : Bool → List Char → List Char
  | false, '\\' :: 'u' :: '\x7b' :: cs => '\\' :: 'u' :: '\x7b' :: nameChars true cs
  | false, '\\' :: 'u' :: cs => '\\' :: 'u' :: nameChars false cs
  | false, c :: cs => if isNamePart c then c :: nameChars false cs else []
  | true, c :: cs =>
    if c == '\x7d' then c :: nameChars false cs else if isHexDigit c then c :: nameChars true cs else []
  | _, [] => []

def nameAt (cs : List Char) : List Char :=
  match cs with
  | c :: _ => if isDigit c then [] else nameChars false cs
  | [] => []

def reserved : List String :=
  ["break", "case", "catch", "class", "const", "continue", "debugger", "default", "delete", "do",
    "else", "enum", "export", "extends", "false", "finally", "for", "function", "if", "import", "in",
    "instanceof", "new", "null", "return", "super", "switch", "this", "throw", "true", "try", "typeof",
    "var", "void", "while", "with"]

/-- The length of a quoted text behind its opening quote, which it ends with. -/
def quotedLength (quote : Char) : List Char → Option Nat
  | '\\' :: '\r' :: '\n' :: cs => (quotedLength quote cs).map (· + 3)
  | '\\' :: _ :: cs => (quotedLength quote cs).map (· + 2)
  | c :: cs =>
    if c == quote then some 1
    else if c == '\n' || c == '\\' then none
    else (quotedLength quote cs).map (· + 1)
  | [] => none

/-- The length of a regular expression behind its opening slash; one in brackets does not end it. -/
def patternLength (bracketed : Bool) : List Char → Option Nat
  | '\\' :: c :: cs => if isLineEnd c then none else (patternLength bracketed cs).map (· + 2)
  | c :: cs =>
    if isLineEnd c then none
    else if c == '/' && !bracketed then some (1 + (cs.takeWhile isNamePart).length)
    else (patternLength ((bracketed || c == '[') && c != ']') cs).map (· + 1)
  | [] => none

/-- The length of a template's text up to a substitution or the end, and whether it is the end. -/
def chunkLength : List Char → Option (Nat × Bool)
  | '\\' :: _ :: cs => (chunkLength cs).map fun (n, final) => (n + 2, final)
  | '$' :: '\x7b' :: _ => some (0, false)
  | '`' :: _ => some (0, true)
  | _ :: cs => (chunkLength cs).map fun (n, final) => (n + 1, final)
  | [] => none

def numberLength (cs : List Char) : Nat :=
  let digits (cs : List Char) : Nat := (cs.takeWhile fun c => isDigit c || c == '_').length
  match cs with
  | '0' :: c :: cs =>
    if "xXoObB".toList.contains c then 2 + (cs.takeWhile isNamePart).length else decimal digits ('0' :: c :: cs)
  | cs => decimal digits cs
where
  /-- An exponent or the letter that marks an integer of any size. -/
  suffix (digits : List Char → Nat) (cs : List Char) : Nat :=
    match cs with
    | e :: s :: rest =>
      if e == 'n' then 1
      else if e == 'e' || e == 'E' then
        if s == '+' || s == '-' then 2 + digits rest else 1 + digits (s :: rest)
      else 0
    | [e] => if e == 'n' then 1 else 0
    | [] => 0
  decimal (digits : List Char → Nat) (cs : List Char) : Nat :=
    let whole := digits cs
    let rest := cs.drop whole
    match rest with
    | '.' :: after =>
      let n := whole + 1 + digits after
      n + suffix digits (cs.drop n)
    | _ => whole + suffix digits rest

namespace Reader

def word : Reader String := do
  let cs := nameAt (← rest)
  check (!cs.isEmpty)
  token cs.length
  return String.ofList cs

def keyword (name : String) : Reader Unit := do
  check ((← word) == name)

def seesKeyword (name : String) : Reader Bool := do
  return nameAt (← rest) == name.toList

def plainName : Reader String := do
  let name ← word
  check (!reserved.contains name)
  return name

def identifier : Reader Tree := do
  let start ← mark
  let _ ← plainName
  node .identifier start []

def string : Reader Tree := do
  let start ← mark
  match ← rest with
  | c :: cs =>
    check (c == '"' || c == '\'')
    let n ← (quotedLength c cs : Option Nat)
    token (n + 1)
    node .string start []
  | [] => failure

def number : Reader Tree := do
  let start ← mark
  let cs ← rest
  match cs with
  | c :: d :: _ => check (isDigit c || (c == '.' && isDigit d))
  | [c] => check (isDigit c)
  | [] => failure
  token (numberLength cs)
  node .other start []

def pattern : Reader Tree := do
  let start ← mark
  match ← rest with
  | '/' :: cs =>
    let n ← (patternLength false cs : Option Nat)
    token (n + 1)
    node .other start []
  | _ => failure

def privateName : Reader Tree := do
  let start ← mark
  match ← rest with
  | '#' :: cs =>
    let name := nameAt cs
    check (!name.isEmpty)
    token (name.length + 1)
    node .other start []
  | _ => failure

end Reader

end ClassSort.Script
