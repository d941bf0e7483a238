import ClassSort.Order.Sort
import ClassSort.Text.Slice

/-!
# Findings and their fixes

A finding names a range of the source and the text to put there. Fixes are applied from the front;
one that begins inside a range that was already replaced is left for a later pass.
-/

namespace ClassSort

structure Violation where
  rule : String
  range : Span
  replacement : String
  message : String
  deriving DecidableEq, Repr

def sortViolations (violations : List Violation) : List Violation :=
  sortBy (fun a b => a.range.le b.range) violations

structure Fixed where
  output : String
  applied : Nat
  skipped : Nat
  deriving DecidableEq, Repr

structure InvalidRange where
  range : Span
  length : Nat
  deriving DecidableEq, Repr

def InvalidRange.message (e : InvalidRange) : String :=
  s!"replacement range {e.range.start}..{e.range.stop} is invalid for a source of {e.length} bytes"

namespace Fixed

def splice (source : List Char) : List Violation → Nat → List Char → Except InvalidRange (List Char × Nat × Nat)
  | [], _, rest => .ok (rest, 0, 0)
  | v :: vs, pos, rest =>
    if !v.range.fits source then .error ⟨v.range, byteLength source⟩
    else if v.range.start < pos then do
      let (out, applied, skipped) ← splice source vs pos rest
      .ok (out, applied, skipped + 1)
    else
      match splitAtByte rest (v.range.start - pos) with
      | none => .error ⟨v.range, byteLength source⟩
      | some (kept, rest) =>
        match splitAtByte rest v.range.size with
        | none => .error ⟨v.range, byteLength source⟩
        | some (_, rest) => do
          let (out, applied, skipped) ← splice source vs v.range.stop rest
          .ok (kept ++ v.replacement.toList ++ out, applied + 1, skipped)

end Fixed

/-- Applies the fixes of all findings that do not overlap an earlier one. -/
def applyViolations (source : String) (violations : List Violation) : Except InvalidRange Fixed := do
  let cs := source.toList
  let (out, applied, skipped) ← Fixed.splice cs (sortViolations violations) 0 cs
  .ok ⟨String.ofList out, applied, skipped⟩

end ClassSort
