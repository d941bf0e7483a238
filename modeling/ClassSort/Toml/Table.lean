import ClassSort.Toml.Value

/-!
# Building tables

Headers and keys name places by paths. A path makes the tables that are missing on its way, enters
the last of the rows of a header in double brackets, and stops at everything that is complete.
-/

namespace ClassSort.Toml

abbrev Entries := List (String × Toml)

def replace (key : String) (v : Toml) (entries : Entries) : Entries :=
  entries.map fun e => if e.1 == key then (key, v) else e

def admits (made origin : TableOrigin) : Bool :=
  match origin with
  | .inline => false
  | .header => made != .dotted
  | _ => true

/-- Changes the table at the end of a path; missing tables on the way are `made`. -/
def along (made : TableOrigin) (change : TableOrigin → Entries → Option Entries) :
    List String → TableOrigin → Entries → Option Entries
  | [], origin, entries => change origin entries
  | key :: path, _, entries =>
    match entries.lookup key with
    | none => do some (entries ++ [(key, table made (← along made change path made []))])
    | some (table origin inner) =>
      if admits made origin then do
        some (replace key (table origin (← along made change path origin inner)) entries)
      else none
    | some (rows tables) => do
      let changed ← along made change path .header (← tables.getLast?)
      some (replace key (rows (tables.dropLast ++ [changed])) entries)
    | some _ => none

/-- Adds an entry under a key, in front of which the keys of a dotted path may stand. A dotted path
ends in a table that dotted keys made, a plain key stands in any other. -/
def addEntry (path : List String) (key : String) (v : Toml) : TableOrigin → Entries → Option Entries :=
  along .dotted (fun origin entries =>
    let fits := (origin == .dotted) != path.isEmpty
    if fits && (entries.lookup key).isNone then some (entries ++ [(key, v)]) else none) path

def openTable (key : String) (_ : TableOrigin) (entries : Entries) : Option Entries :=
  match entries.lookup key with
  | none => some (entries ++ [(key, table .header [])])
  | some (table .implied inner) => some (replace key (table .header inner) entries)
  | some _ => none

def openRow (key : String) (_ : TableOrigin) (entries : Entries) : Option Entries :=
  match entries.lookup key with
  | none => some (entries ++ [(key, rows [[]])])
  | some (rows tables) => some (replace key (rows (tables ++ [[]])) entries)
  | some _ => none

structure Draft where
  root : Entries
  /-- The path of the last header. -/
  here : List String

namespace Draft

def empty : Draft := ⟨[], []⟩

def enter (d : Draft) (effect : String → TableOrigin → Entries → Option Entries) (path : List String)
    (key : String) : Option Draft := do
  some ⟨← along .implied (effect key) path .header d.root, path ++ [key]⟩

def add (d : Draft) (path : List String) (key : String) (v : Toml) : Option Draft := do
  some { d with root := ← along .implied (addEntry path key v) d.here .header d.root }

end Draft

end ClassSort.Toml
