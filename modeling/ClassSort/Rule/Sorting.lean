import ClassSort.Candidate
import ClassSort.Edit
import ClassSort.Order.Resolver

/-!
# Classes in the framework's order

Every class text of a file whose classes are out of order, or repeated, is a finding; its fix puts
the sorted classes between the same separators. The orders of all classes of a file are asked for
in one batch.
-/

namespace ClassSort.Sorting

def rule : String := "sort-classes"

def message : String := "classes should be sorted"

/-- A class text with its classes in order. -/
def rebuilt (orders : OrderMap) (removeDuplicates : Bool) (body : String) : String :=
  let list := ClassList.parse body
  list.rebuild (sortTokens list.tokens orders) removeDuplicates

def violation? (orders : OrderMap) (removeDuplicates : Bool) (c : Candidate) : Option Violation :=
  let body := rebuilt orders removeDuplicates c.body
  if body = c.body then none else some ⟨rule, c.range, c.before ++ body ++ c.after, message⟩

def dropSameRange : List Violation → List Violation
  | a :: b :: rest =>
    match dropSameRange (b :: rest) with
    | [] => [a]
    | c :: rest => if a.range = c.range then a :: rest else a :: c :: rest
  | vs => vs

def violations (orders : OrderMap) (removeDuplicates : Bool) (candidates : List Candidate) :
    List Violation :=
  dropSameRange (sortViolations (candidates.filterMap (violation? orders removeDuplicates)))

variable {σ κ : Type}

def check (o : Ranking σ κ) (source : String) (roots : List Node) (options : SortOptions)
    (r : Resolver κ) (s : σ) : Except OrderError (List Violation) × Resolver κ × σ :=
  let candidates := Candidate.collect source options roots
  if candidates.isEmpty then (.ok [], r, s)
  else
    let tokens := candidates.flatMap fun c => (ClassList.parse c.body).tokens
    match r.resolve o tokens s with
    | (.error e, r, s) => (.error e, r, s)
    | (.ok orders, r, s) => (.ok (violations orders options.removeDuplicates candidates), r, s)

/-- Sorts a class text that stands alone; one with a placeholder or fewer than two classes comes
back as it is. -/
def sortText (o : Ranking σ κ) (text : String) (removeDuplicates : Bool) (r : Resolver κ) (s : σ) :
    Except OrderError String × Resolver κ × σ :=
  let list := ClassList.parse text
  if hasPlaceholder text || !list.isSortable then (.ok text, r, s)
  else
    match r.resolve o list.tokens s with
    | (.error e, r, s) => (.error e, r, s)
    | (.ok orders, r, s) => (.ok (rebuilt orders removeDuplicates text), r, s)

end ClassSort.Sorting
