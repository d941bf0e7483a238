import ClassSort.Text.Blank

/-!
# Class lists

A class text is a row of classes with runs of separators between them, possibly one in front and
one behind. It is taken apart into a layout, the classes are reordered, and the same runs are
threaded through them again, so a list that was in order comes back byte for byte.

    "a b c"      runs [" ", " "]            neither end
    " a b c"     runs [" ", " ", " "]       head
    "a b c "     runs [" ", " ", " "]       tail
    " a b c "    runs [" ", " ", " ", " "]  head and tail
-/

namespace ClassSort

structure ClassList where
  /-- The classes, in the order of the text. -/
  tokens : List String
  /-- The runs of separators, in the order of the text. -/
  runs : List String
  /-- The text begins with a run. -/
  head : Bool
  /-- The text ends with a run. -/
  tail : Bool
  deriving DecidableEq, Repr

/-- A template engine's placeholder opens with two braces; such a text is never reordered. -/
def hasPlaceholder (text : String) : Bool := opens text.toList
where
  opens : List Char → Bool
    | '{' :: '{' :: _ => true
    | _ :: cs => opens cs
    | [] => false

namespace ClassList

abbrev isSeparator : Char → Bool := isAsciiBlank

def pieces : List Char → List (List Char)
  | [] => []
  | c :: cs =>
    match pieces cs with
    | (d :: p) :: ps =>
      if isSeparator c == isSeparator d then (c :: d :: p) :: ps else [c] :: (d :: p) :: ps
    | ps => [c] :: ps

def isRun (piece : List Char) : Bool := piece.head?.any isSeparator

def parse (text : String) : ClassList :=
  let cs := text.toList
  let ps := pieces cs
  { tokens := (ps.filter (!isRun ·)).map String.ofList
    runs := (ps.filter isRun).map String.ofList
    head := cs.head?.any isSeparator
    tail := cs.getLast?.any isSeparator }

def isSortable (list : ClassList) : Bool := decide (1 < list.tokens.length)

/-- What stands at place `i` of `n`: the class with the run that belongs to it. With a head the
run goes in front, otherwise behind; with both ends the last class takes the last run too. -/
def piece (runs : List String) (head tail : Bool) (n i : Nat) (token : String) : String :=
  let run := (runs[i]?).getD ""
  if i + 1 == n && head && tail then run ++ token ++ (runs.getLast?).getD ""
  else if head then run ++ token
  else token ++ run

def assemble (tokens runs : List String) (head tail : Bool) : String :=
  String.join (tokens.mapIdx (piece runs head tail tokens.length))

def repeats : Nat → List String → List Nat
  | i, a :: b :: rest => if a = b then (i + 1) :: repeats (i + 1) (b :: rest) else repeats (i + 1) (b :: rest)
  | _, _ => []

def distinctNeighbours : List String → List String
  | a :: b :: rest => if a = b then distinctNeighbours (b :: rest) else a :: distinctNeighbours (b :: rest)
  | tokens => tokens

/-- Drops every class equal to the one before it, each together with the run in front of it. -/
def dedupe (tokens runs : List String) (head : Bool) : List String × List String :=
  let dropped := (repeats 0 tokens).map fun i => if head then i else i - 1
  (distinctNeighbours tokens, dropped.foldr (fun i left => left.eraseIdx i) runs)

def rebuild (list : ClassList) (sorted : List String) (removeDuplicates : Bool) : String :=
  let (tokens, runs) :=
    if removeDuplicates then dedupe sorted list.runs list.head else (sorted, list.runs)
  assemble tokens runs list.head list.tail

end ClassList

end ClassSort
