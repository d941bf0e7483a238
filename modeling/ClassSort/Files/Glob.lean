/-!
# Glob patterns

A pattern is matched against the bytes of a path. A star and a question mark stop at slashes, two
stars between slashes stand for any number of directories, brackets hold a class of bytes, braces
hold alternatives, and a backslash takes the next character as it is. A bracket that is never closed
stands for itself, and so does every one behind it.
-/

namespace ClassSort

inductive Glob where
  | byte (b : UInt8)
  /-- Any byte but a slash. -/
  | one
  /-- Any bytes but slashes. -/
  | many
  /-- Two stars at the front: nothing, or directories. -/
  | anyAbove
  /-- Two stars behind the last slash: everything in a directory. -/
  | inside
  /-- Two stars between slashes: a slash, or directories between two. -/
  | anyBetween
  | among (negated : Bool) (ranges : List (UInt8 × UInt8))
  | oneOf (alternatives : List (List Glob))
  deriving Repr

namespace Glob

def slash : UInt8 := 47

def newline : UInt8 := 10

def charBytes (c : Char) : List UInt8 := (String.singleton c).toUTF8.data.toList

def afterMany (p : UInt8 → Bool) : List UInt8 → List (List UInt8)
  | [] => [[]]
  | b :: bs => (b :: bs) :: if p b then afterMany p bs else []

def afterDirectories (bs : List UInt8) : List (List UInt8) :=
  (afterMany (· != newline) bs).filterMap fun
    | b :: rest => if b == slash then some rest else none
    | [] => none

def isAmong (negated : Bool) (ranges : List (UInt8 × UInt8)) (b : UInt8) : Bool :=
  (ranges.any fun r => r.1 ≤ b && b ≤ r.2) != negated

mutual
def isVoid : Glob → Bool
  | oneOf alternatives => areVoid alternatives
  | _ => false

def isVoidRow : List Glob → Bool
  | [] => true
  | g :: rest => isVoid g && isVoidRow rest

def areVoid : List (List Glob) → Bool
  | [] => true
  | row :: rest => isVoidRow row && areVoid rest
end

mutual
/-- What a piece may leave of a text. Alternatives that hold nothing are left out; without any
others the piece matches the empty text. -/
def rests : Glob → List UInt8 → List (List UInt8)
  | byte b, c :: bs => if b == c then [bs] else []
  | one, c :: bs => if c == slash then [] else [bs]
  | many, bs => afterMany (· != slash) bs
  | anyAbove, bs => bs :: ((if bs.head? == some slash then [bs.tail] else []) ++ afterDirectories bs)
  | inside, c :: bs => if c == slash then afterMany (· != newline) bs else []
  | anyBetween, c :: bs => if c == slash then bs :: afterDirectories bs else []
  | among negated ranges, c :: bs => if isAmong negated ranges c then [bs] else []
  | oneOf alternatives, bs => if areVoid alternatives then [bs] else restsOfAny alternatives bs
  | _, [] => []

def restsOfRow : List Glob → List UInt8 → List (List UInt8)
  | [], bs => [bs]
  | g :: row, bs => (rests g bs).flatMap fun rest => restsOfRow row rest

def restsOfAny : List (List Glob) → List UInt8 → List (List UInt8)
  | [], _ => []
  | row :: others, bs => (if isVoidRow row then [] else restsOfRow row bs) ++ restsOfAny others bs
end

/-- Whether a pattern matches a whole text; two stars alone match everything on one line. -/
def matchesAll (pattern : List Glob) (text : List UInt8) : Bool :=
  match pattern with
  | [anyAbove] => text.all (· != newline)
  | _ => (restsOfRow pattern text).any (·.isEmpty)

/-! ## Reading patterns -/

structure Draft where
  /-- The pieces of the row that is read, the last one first. -/
  row : List Glob
  /-- The open braces, innermost first: finished alternatives, and the row in front. -/
  opened : List (List (List Glob) × List Glob)

namespace Draft

def empty : Draft := ⟨[], []⟩

def push (d : Draft) (g : Glob) : Draft := { d with row := g :: d.row }

def pushChar (d : Draft) (c : Char) : Draft := (charBytes c).foldl (fun d b => d.push (.byte b)) d

def pushStars (d : Draft) : Draft := (d.push .many).push .many

def openBrace (d : Draft) : Draft := ⟨[], ([], d.row) :: d.opened⟩

def comma (d : Draft) : Draft :=
  match d.opened with
  | [] => d.pushChar ','
  | (done, before) :: rest => ⟨[], (done ++ [d.row.reverse], before) :: rest⟩

def closeBrace (d : Draft) : Option Draft :=
  match d.opened with
  | [] => none
  | (done, before) :: rest => some ⟨.oneOf (done ++ [d.row.reverse]) :: before, rest⟩

def pushDirectories (d : Draft) (g : Glob) : Draft :=
  match d.row with
  | .anyAbove :: _ => d
  | .inside :: _ => d
  | _ :: row => { d with row := g :: row }
  | [] => d.push g

end Draft

def rangeUInt8s (low high : Char) : List (UInt8 × UInt8) :=
  let single (b : UInt8) : UInt8 × UInt8 := (b, b)
  if low == high then (charBytes low).map single
  else
    match (charBytes low).getLast?, charBytes high with
    | some last, first :: rest => (charBytes low).dropLast.map single ++ (last, first) :: rest.map single
    | _, _ => []

/-- What a class comes to: its bytes and the rest of the pattern. -/
inductive ClassResult where
  | closed (ranges : List (Char × Char)) (rest : List Char)
  | unclosed
  /-- A range from a later to an earlier character. -/
  | reversed

/-- The inside of a class. `ranges` holds what was read, the last range first; `isOpen` says that a
hyphen behind it waits for its end. -/
def readClass : Bool → Bool → List (Char × Char) → List Char → ClassResult
  | _, _, _, [] => .unclosed
  | atStart, isOpen, ranges, c :: rest =>
    if c == ']' && !atStart then .closed (if isOpen then ('-', '-') :: ranges else ranges) rest
    else if isOpen then
      match ranges with
      | (low, _) :: more => if c < low then .reversed else readClass false false ((low, c) :: more) rest
      | [] => readClass false false [(c, c)] rest
    else if c == '-' && !atStart then readClass false true ranges rest
    else readClass false false ((c, c) :: ranges) rest

def readStars (before : Option Char) (d : Draft) (rest : List Char) : Draft × List Char :=
  let inBraces := !d.opened.isEmpty
  let atSlash := rest.head?.all (· == '/')
  if d.row.isEmpty then if atSlash then (d.push .anyAbove, rest.tail) else (d.pushStars, rest)
  else if before != some '/' && !(inBraces && (before == some ',' || before == some '\x7b')) then
    (d.pushStars, rest)
  else if rest.isEmpty || (inBraces && rest.head?.any fun c => c == ',' || c == '\x7d') then
    (d.pushDirectories .inside, rest)
  else if atSlash then (d.pushDirectories .anyBetween, rest.tail)
  else (d.pushStars, rest)

/-- Reads a pattern on. `before` is the last character read, `plain` says that brackets stand for
themselves. -/
def readFrom : Nat → Bool → Option Char → Draft → List Char → Option Draft
  | 0, _, _, _, _ => none
  | _ + 1, _, _, d, [] => some d
  | fuel + 1, plain, before, d, '*' :: '*' :: rest =>
    let (d, more) := readStars before d rest
    readFrom fuel plain (if more.length < rest.length then some '/' else some '*') d more
  | fuel + 1, plain, _, d, '\\' :: rest =>
    match rest with
    | [] => none
    | c :: rest => readFrom fuel plain (some c) (d.pushChar c) rest
  | fuel + 1, plain, _, d, c :: rest =>
    if c == '?' then readFrom fuel plain (some c) (d.push .one) rest
    else if c == '*' then readFrom fuel plain (some c) (d.push .many) rest
    else if c == '\x7b' then readFrom fuel plain (some c) d.openBrace rest
    else if c == '\x7d' then do readFrom fuel plain (some c) (← d.closeBrace) rest
    else if c == ',' then readFrom fuel plain (some c) d.comma rest
    else if c == '[' && !plain then
      let negated := rest.head?.any fun c => c == '!' || c == '^'
      match readClass true false [] (if negated then rest.tail else rest) with
      | .closed ranges rest =>
        let ranges := ranges.reverse.flatMap fun r => rangeUInt8s r.1 r.2
        readFrom fuel plain (some ']') (d.push (.among negated ranges)) rest
      | .unclosed => readFrom fuel true (some c) (d.pushChar c) rest
      | .reversed => none
    else readFrom fuel plain (some c) (d.pushChar c) rest

/-- Reads a pattern; one with a brace too many or too few, a reversed range or a backslash at its
end is refused. -/
def parse? (cs : List Char) : Option (List Glob) := do
  let d ← readFrom (cs.length + 1) false none .empty cs
  if d.opened.isEmpty then some d.row.reverse else none

end Glob

end ClassSort
