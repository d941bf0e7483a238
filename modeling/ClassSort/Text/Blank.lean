/-!
# White space

White space is the Unicode property `White_Space`: 25 code points, of which six are ASCII. It
decides what is trimmed from keys, header lines and attribute texts, and what separates the words
of a command line. (The separators between classes are a smaller set, see `ClassList`.)
-/

namespace ClassSort

def isBlank (c : Char) : Bool :=
  let n := c.toNat
  (9 ≤ n && n ≤ 13) || n == 0x20 || n == 0x85 || n == 0xa0 || n == 0x1680 ||
    (0x2000 ≤ n && n ≤ 0x200a) || n == 0x2028 || n == 0x2029 || n == 0x202f || n == 0x205f ||
    n == 0x3000

/-- The five white space characters that separate words in markup: tab, line feed, form feed,
carriage return and space. -/
def isAsciiBlank (c : Char) : Bool :=
  c == '\t' || c == '\n' || c == '\x0c' || c == '\r' || c == ' '

def dropEnd (p : Char → Bool) : List Char → List Char
  | [] => []
  | c :: cs =>
    match dropEnd p cs with
    | [] => if p c then [] else [c]
    | d :: ds => c :: d :: ds

def trimChars (cs : List Char) : List Char := dropEnd isBlank (cs.dropWhile isBlank)

def trim (s : String) : String := String.ofList (trimChars s.toList)

def wordsChars (p : Char → Bool) : List Char → List (List Char)
  | [] => []
  | c :: cs =>
    if p c then wordsChars p cs
    else
      match cs, wordsChars p cs with
      | d :: _, w :: ws => if p d then [c] :: w :: ws else (c :: w) :: ws
      | _, ws => [c] :: ws

def words (s : String) : List String := (wordsChars isBlank s.toList).map String.ofList

example : words " a\tbc  d " = ["a", "bc", "d"] := by decide +kernel

end ClassSort
