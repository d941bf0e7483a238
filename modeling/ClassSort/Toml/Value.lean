import ClassSort.Json.Value

/-!
# TOML documents

A document is a table of entries. Tables differ in how they came about, since that decides what may
be added to them later: a table written in place is complete, one that has a header of its own is
not entered by dotted keys, and one on the way of a dotted key gets no header.
-/

namespace ClassSort

inductive TableOrigin where
  /-- Has a header, as the document itself. -/
  | header
  /-- Lies on the way to a header. -/
  | implied
  /-- Lies on the way of a dotted key. -/
  | dotted
  /-- Written in place. -/
  | inline
  deriving DecidableEq, Repr

inductive Toml where
  | text (s : String)
  | int (n : Int)
  | float (x : Binary64)
  /-- An infinity or no number at all. -/
  | nonFinite
  | bool (b : Bool)
  /-- A date, a time or both, as it is shown. -/
  | moment (text : String)
  | array (items : List Toml)
  | table (origin : TableOrigin) (entries : List (String × Toml))
  /-- Tables of one header in double brackets. -/
  | rows (tables : List (List (String × Toml)))
  deriving Repr

namespace Toml

/-- The only field of the object that stands for a date or time. -/
def momentField : String := "$__toml_private_datetime"

mutual
def toJson : Toml → Json
  | text s => .str s
  | int n => .int n
  | float x => .float x
  | nonFinite => .null
  | bool b => .bool b
  | moment t => .obj [(momentField, .str t)]
  | array items => .arr (itemsToJson items)
  | table _ entries => .obj (entriesToJson entries)
  | rows tables => .arr (rowsToJson tables)

def itemsToJson : List Toml → List Json
  | [] => []
  | v :: rest => toJson v :: itemsToJson rest

def entriesToJson : List (String × Toml) → List (String × Json)
  | [] => []
  | (key, v) :: rest => (key, toJson v) :: entriesToJson rest

def rowsToJson : List (List (String × Toml)) → List Json
  | [] => []
  | entries :: rest => .obj (entriesToJson entries) :: rowsToJson rest
end

end Toml

end ClassSort
