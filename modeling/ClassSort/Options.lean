/-!
# What is checked

Which calls, tags, variables and object entries hold class texts, and whether repeated classes
are dropped.
-/

namespace ClassSort

structure Declarations where
  leading : List String
  trailing : List String
  names : List String
  deriving DecidableEq, Repr

namespace Declarations

def none : Declarations := ⟨[], [], []⟩

/-- Whether a variable of this name is checked: by how the name begins, how it ends, or as a whole. -/
def selects (d : Declarations) (name : String) : Bool :=
  d.leading.any (fun p => p.toList.isPrefixOf name.toList) ||
    d.trailing.any (fun s => s.toList.isSuffixOf name.toList) || d.names.contains name

end Declarations

structure SortOptions where
  /-- Calls whose arguments hold class texts, by name or `object.property`. -/
  callees : List String
  declarations : Declarations
  /-- Object entries that are skipped with all they hold, by key. -/
  ignoredKeys : List String
  /-- Tags whose templates hold class texts. -/
  tags : List String
  removeDuplicates : Bool
  deriving DecidableEq, Repr

def SortOptions.standard : SortOptions where
  callees := ["classnames", "clsx", "ctl", "cva", "tv"]
  declarations := .none
  ignoredKeys := ["compoundVariants", "defaultVariants"]
  tags := []
  removeDuplicates := true

end ClassSort
