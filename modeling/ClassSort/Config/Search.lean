import ClassSort.Files.Tree
import ClassSort.Order.Error

/-!
# Searching a config upwards

In a repository of many packages each package may have a config file of its own. The search looks
in the directory of the processed file and in every directory above it up to a root, which it
never leaves.
-/

namespace ClassSort.ConfigSearch

def fileNames : List String :=
  ["tailwind.config.js", "tailwind.config.cjs", "tailwind.config.mjs", "tailwind.config.ts",
    "tailwind.config.cts", "tailwind.config.mts"]

def inDirectory? (files : FileTree) (dir : Path) (names : List String) : Option Path :=
  (names.map fun n => dir.join ⟨n⟩).find? files.isFile

def upwards (files : FileTree) (root : Path) (names : List String) : Nat → Path → Option Path
  | 0, _ => none
  | fuel + 1, dir =>
    if !dir.startsWith root then none
    else
      match inDirectory? files dir names with
      | some p => some p
      | none => dir.parent?.bind (upwards files root names fuel)

/-- The nearest config from `start` up to `root`; a configured name goes before the others. -/
def find (files : FileTree) (root start : Path) (configured : Option String) :
    Except OrderError Path :=
  match upwards files root (configured.toList ++ fileNames) (start.text.length + 1) start with
  | some p => .ok p
  | none => .error (.noConfigBetween start root)

end ClassSort.ConfigSearch
