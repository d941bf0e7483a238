import ClassSort.Text.Blank
import ClassSort.Text.Slice

/-!
# Points of a document

A point is what is left of a document and where that begins. A scan moves from point to point and
only forward.
-/

namespace ClassSort.Markup

structure Point where
  rest : List Char
  pos : Nat
  deriving DecidableEq, Repr

namespace Point

def ofText (text : String) : Point := ⟨text.toList, 0⟩

/-- One character further, if there is one. -/
def next (p : Point) : Point :=
  match p.rest with
  | [] => p
  | c :: cs => ⟨cs, p.pos + c.utf8Size⟩

def skip (q : Char → Bool) (p : Point) : Point :=
  let skipped := p.rest.takeWhile q
  ⟨p.rest.dropWhile q, p.pos + byteLength skipped⟩

def skipBlanks (p : Point) : Point := p.skip isAsciiBlank

def findFrom (q : List Char → Bool) : List Char → Nat → Point
  | [], n => ⟨[], n⟩
  | c :: cs, n => if q (c :: cs) then ⟨c :: cs, n⟩ else findFrom q cs (n + c.utf8Size)

def find (q : List Char → Bool) (p : Point) : Point := findFrom q p.rest p.pos

def ahead (n : Nat) (p : Point) : Point := ⟨p.rest.drop n, p.pos + byteLength (p.rest.take n)⟩

/-- Past the first occurrence of a mark, or to the end. -/
def past (mark : List Char) (p : Point) : Point := (p.find mark.isPrefixOf).ahead mark.length

def sees (mark : List Char) (p : Point) : Bool := mark.isPrefixOf p.rest

end Point

end ClassSort.Markup
