import ClassSort.Json.Value
import ClassSort.Order.Key

/-!
# Values of known shape

Decoders read a JSON value of a known shape and refuse every other. A record is an object, where a
field may not occur twice and unknown fields are skipped, or an array of the field values in their
order.
-/

namespace ClassSort.Json

def decodeList {α : Type} (item : Json → Option α) : Json → Option (List α)
  | arr items => items.mapM item
  | _ => none

def decodeBool : Json → Option Bool
  | bool b => some b
  | _ => none

def decodeStrings : Json → Option (List String) := decodeList string?

def decodeNat (bits : Nat) (v : Json) : Option Nat := v.unsigned?.filter (· < Nat.pow 2 bits)

def decodeInt : Json → Option Int
  | int n => if -0x8000000000000000 ≤ n ∧ n < 0x8000000000000000 then some n else none
  | _ => none

def decodeOption {α : Type} (item : Json → Option α) : Json → Option (Option α)
  | null => some none
  | v => (item v).map some

/-- An order key is an integer or a text that holds one. -/
def decodeKey : Json → Option OrderKey
  | int n => some n
  | str s => OrderKey.parse? s
  | _ => none

/-- The values of a record's fields; a field that is left out has none. -/
def record (names : List String) : Json → Option (List (Option Json))
  | obj fields =>
    names.mapM fun name =>
      match fields.filter (·.1 == name) with
      | [] => some none
      | [(_, v)] => some (some v)
      | _ => none
  | arr items =>
    if names.length < items.length then none
    else some (items.map some ++ List.replicate (names.length - items.length) none)
  | _ => none

def withDefault {α : Type} (default : α) (item : Json → Option α) : Option Json → Option α
  | none => some default
  | some v => item v

end ClassSort.Json
