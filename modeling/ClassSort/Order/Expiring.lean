/-!
# Entries that expire

A map whose entries count for a limited time after they were put in. An expired entry is dropped
when it is looked up and by `purge`, and until then still counts towards the size. Times are
milliseconds; a clock that runs backwards makes entries fresh again.
-/

namespace ClassSort

structure Expiring (κ ν : Type) where
  ttl : Nat
  /-- Key, time of insertion and value, each key once. -/
  entries : List (κ × Nat × ν)

namespace Expiring

variable {κ ν : Type} [BEq κ]

def empty (ttl : Nat) : Expiring κ ν := ⟨ttl, []⟩

def isLive (m : Expiring κ ν) (now since : Nat) : Bool := decide (now - since < m.ttl)

def entry? (m : Expiring κ ν) (key : κ) : Option (Nat × ν) := m.entries.lookup key

def erase (m : Expiring κ ν) (key : κ) : Expiring κ ν :=
  { m with entries := m.entries.filter fun e => !(e.1 == key) }

/-- The value put in less than the lifetime before `now`. -/
def get (m : Expiring κ ν) (key : κ) (now : Nat) : Option ν × Expiring κ ν :=
  match m.entry? key with
  | none => (none, m)
  | some (since, value) => if m.isLive now since then (some value, m) else (none, m.erase key)

def insert (m : Expiring κ ν) (key : κ) (value : ν) (now : Nat) : Expiring κ ν :=
  { m with entries := (key, now, value) :: (m.erase key).entries }

/-- Drops what has expired. -/
def purge (m : Expiring κ ν) (now : Nat) : Expiring κ ν :=
  { m with entries := m.entries.filter fun e => m.isLive now e.2.1 }

def size (m : Expiring κ ν) : Nat := m.entries.length

end Expiring

end ClassSort
