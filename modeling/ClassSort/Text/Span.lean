/-!
# Byte ranges

Every position in a source text is a byte offset into its UTF-8 form. A range is a pair of
offsets and nothing more: front ends and callers may hand in reversed ranges, ranges past the end
of the text and ranges that cut a character, so whoever reads through a range checks it.
-/

namespace ClassSort

structure Span where
  start : Nat
  stop : Nat
  deriving DecidableEq, Repr, Inhabited

namespace Span

def size (s : Span) : Nat := s.stop - s.start

def shift (k : Nat) (s : Span) : Span := ⟨s.start + k, s.stop + k⟩

/-- The range without its first and its last byte, e.g. a quoted text without its quotes. -/
def inner (s : Span) : Span := ⟨s.start + 1, s.stop - 1⟩

def le (a b : Span) : Bool :=
  decide (a.start < b.start) || (a.start == b.start && decide (a.stop ≤ b.stop))

def Within (s t : Span) : Prop := t.start ≤ s.start ∧ s.stop ≤ t.stop

/-- `s` ends before `t` begins, or where it begins. -/
def Before (s t : Span) : Prop := s.stop ≤ t.start

def Disjoint (s t : Span) : Prop := s.Before t ∨ t.Before s

theorem shift_zero (s : Span) : s.shift 0 = s := rfl

theorem shift_shift (s : Span) (j k : Nat) : (s.shift j).shift k = s.shift (j + k) := by
  simp [shift, Nat.add_assoc]

theorem size_shift (s : Span) (k : Nat) : (s.shift k).size = s.size := by
  simp [size, shift, Nat.add_sub_add_right]

end Span

end ClassSort
