import ClassSort.Order.Key

/-!
# Sorting classes

Sorting is stable: classes with the same key, or with none, keep their order. The same insertion
sort serves every list of this library whose ties must stay put.
-/

namespace ClassSort

def insertBy {α : Type} (le : α → α → Bool) (x : α) : List α → List α
  | [] => [x]
  | y :: ys => if le x y then x :: y :: ys else y :: insertBy le x ys

def sortBy {α : Type} (le : α → α → Bool) : List α → List α
  | [] => []
  | x :: xs => insertBy le x (sortBy le xs)

/-- Answers by class. The newest answer for a class stands first and counts. -/
abbrev OrderMap := List (String × Option OrderKey)

namespace OrderMap

def key? (orders : OrderMap) (token : String) : Option OrderKey := (orders.lookup token).join

def insert (orders : OrderMap) (token : String) (key : Option OrderKey) : OrderMap :=
  (token, key) :: orders.filter (·.1 != token)

end OrderMap

def sortTokens (tokens : List String) (orders : OrderMap) : List String :=
  sortBy (fun a b => (OrderKey.compare (orders.key? a) (orders.key? b)).isLE) tokens

end ClassSort
