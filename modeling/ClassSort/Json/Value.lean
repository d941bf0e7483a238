import ClassSort.Number.Shortest

/-!
# JSON values

Integers keep their own constructor: every number that fits a 64-bit integer, signed or unsigned,
is one; any other is a floating-point number. An object is a list of fields. Read from a text it
has them as written, repeats included; its canonical form has each name once, with the last value
given, in the order of the code points.
-/

namespace ClassSort

inductive Json where
  | null
  | bool (b : Bool)
  | int (n : Int)
  | float (x : Binary64)
  | str (s : String)
  | arr (items : List Json)
  | obj (fields : List (String × Json))
  deriving Repr, Inhabited

namespace Json

mutual
def beq : Json → Json → Bool
  | null, null => true
  | bool a, bool b => a == b
  | int a, int b => a == b
  | float a, float b => a == b
  | str a, str b => a == b
  | arr as, arr bs => beqItems as bs
  | obj as, obj bs => beqFields as bs
  | _, _ => false

def beqItems : List Json → List Json → Bool
  | [], [] => true
  | a :: as, b :: bs => beq a b && beqItems as bs
  | _, _ => false

def beqFields : List (String × Json) → List (String × Json) → Bool
  | [], [] => true
  | (j, a) :: as, (k, b) :: bs => j == k && beq a b && beqFields as bs
  | _, _ => false
end

instance : BEq Json := ⟨beq⟩

/-- Sets a field of an object whose fields stand in order. -/
def setField (name : String) (value : Json) : List (String × Json) → List (String × Json)
  | [] => [(name, value)]
  | (k, v) :: rest =>
    if name < k then (name, value) :: (k, v) :: rest
    else if name = k then (name, value) :: rest
    else (k, v) :: setField name value rest

mutual
/-- Each object with every name once, in order. -/
def canonical : Json → Json
  | arr items => arr (canonicalItems items)
  | obj fields => obj (canonicalFields fields [])
  | v => v

def canonicalItems : List Json → List Json
  | [] => []
  | v :: rest => canonical v :: canonicalItems rest

def canonicalFields : List (String × Json) → List (String × Json) → List (String × Json)
  | [], sorted => sorted
  | (k, v) :: rest, sorted => canonicalFields rest (setField k (canonical v) sorted)
end

def field? (name : String) : Json → Option Json
  | obj fields => fields.lookup name
  | _ => none

def string? : Json → Option String
  | str s => some s
  | _ => none

/-- Whole numbers from 0 up to the largest unsigned 64-bit integer. -/
def unsigned? : Json → Option Nat
  | int (.ofNat n) => some n
  | _ => none

end Json

end ClassSort
