import ClassSort.Proofs.Text.Cuts
import ClassSort.Text.Position
import Mathlib.Data.List.Basic
import Mathlib.Data.List.DropRight

/-!
Lines and columns. The position of an offset is counted over the whole characters in front of it, and one more
character always leads to a later position, on the same line or on the next. So between characters positions
follow the offsets, and no two of them are shown alike.
-/

namespace ClassSort

/-- The whole characters of a text up to an offset, and those behind them. -/
structure WholeUpTo (text : List Char) (offset : Nat) (before after : List Char) : Prop where
  split : text = before ++ after
  within : byteLength before ≤ offset
  next : ∀ c ∈ after.head?, offset < byteLength before + c.utf8Size

namespace Position

def Before (p q : Position) : Prop := p.line < q.line ∨ p.line = q.line ∧ p.column < q.column

def behind (cs : List Char) : Position :=
  ⟨cs.count '\n' + 1, (cs.rtakeWhile (· != '\n')).length + 1⟩

def shown (p : Position) : String := s!"{p.line}:{p.column}"

variable {p q r : Position} {before after cs : List Char} {c : Char} {offset : Nat}

theorem Before.trans (h : p.Before q) (h' : q.Before r) : p.Before r := by
  unfold Before at *
  omega

theorem Before.asymm (h : p.Before q) : ¬q.Before p := by
  unfold Before at *
  omega

theorem Before.ne (h : p.Before q) : p ≠ q := by
  rintro rfl
  exact h.asymm h

theorem before_advance (p : Position) (c : Char) : p.Before (p.advance c) := by
  unfold advance
  split
  · exact .inl (Nat.lt_succ_self _)
  · exact .inr ⟨rfl, Nat.lt_succ_self _⟩

theorem behind_concat (cs : List Char) (c : Char) : behind (cs ++ [c]) = (behind cs).advance c := by
  by_cases hc : c = '\n'
  · subst hc
    simp [behind, advance]
  · simp [behind, advance, hc]

/-- Every piece of text leads on. -/
theorem before_behind (before : List Char) (h : cs ≠ []) : (behind before).Before (behind (before ++ cs)) := by
  induction cs using List.reverseRecOn with
  | nil => exact absurd rfl h
  | append_singleton cs c ih =>
    have hlast := before_advance (behind (before ++ cs)) c
    rw [← List.append_assoc, behind_concat]
    by_cases hcs : cs = []
    · rwa [hcs, List.append_nil] at hlast ⊢
    · exact (ih hcs).trans hlast

theorem foldl_advance (cs : List Char) : cs.foldl advance ⟨1, 1⟩ = behind cs := by
  induction cs using List.reverseRecOn with
  | nil => rfl
  | append_singleton cs c ih => rw [List.foldl_append, ih, behind_concat]; rfl

/-- Whole characters are passed. -/
theorem locate_append (before after : List Char) (n : Nat) (p : Position) :
    locate (before ++ after) (byteLength before + n) p = locate after n (before.foldl advance p) := by
  induction before generalizing p with
  | nil => rw [byteLength, Nat.zero_add]; rfl
  | cons c cs ih =>
    have hle : c.utf8Size ≤ byteLength (c :: cs) + n := by
      rw [byteLength]
      omega
    have hrest : byteLength (c :: cs) + n - c.utf8Size = byteLength cs + n := by
      rw [byteLength]
      omega
    rw [List.cons_append, locate, if_pos hle, hrest, ih, List.foldl_cons]

/-- A character that reaches beyond the offset is not passed. -/
theorem locate_of_next {n : Nat} (h : ∀ c ∈ after.head?, n < c.utf8Size) (p : Position) :
    locate after n p = p := by
  cases after with
  | nil => rfl
  | cons c after => rw [locate, if_neg (Nat.not_le.mpr (h c rfl))]

theorem toList_shown (p : Position) :
    p.shown.toList = Nat.toDigits 10 p.line ++ ':' :: Nat.toDigits 10 p.column := by
  simp [shown, ToString.toString, Nat.repr]

/-- What is shown tells positions apart. -/
theorem shown_inj : p.shown = q.shown ↔ p = q := by
  refine ⟨fun h => ?_, congrArg shown⟩
  have hcolon (n : Nat) : ':' ∉ Nat.toDigits 10 n := fun hmem =>
    absurd (Nat.isDigit_of_mem_toDigits (by decide) (by decide) hmem) (by decide)
  have hdigits {m n : Nat} (h : Nat.toDigits 10 m = Nat.toDigits 10 n) : m = n := by
    rw [← Nat.ofDigitChars_ten_toDigits (n := m), h, Nat.ofDigitChars_ten_toDigits]
  have hlist := congrArg String.toList h
  rw [toList_shown, toList_shown, List.append_cons_inj_of_notMem (hcolon _) (hcolon _)] at hlist
  obtain ⟨line, column⟩ := p
  obtain ⟨hline, -, hcolumn⟩ := hlist
  rw [mk.injEq]
  exact ⟨hdigits hline, hdigits hcolumn⟩

end Position

open Position

variable {source : String} {text before after : List Char} {offset a b : Nat}

/-- Every offset has characters in front of it, and is inside the next one or past the end. -/
theorem exists_wholeUpTo (text : List Char) (offset : Nat) : ∃ before after, WholeUpTo text offset before after := by
  induction text generalizing offset with
  | nil => exact ⟨[], [], rfl, Nat.zero_le _, nofun⟩
  | cons c cs ih =>
    by_cases hc : c.utf8Size ≤ offset
    · obtain ⟨before, after, rfl, hwithin, hnext⟩ := ih (offset - c.utf8Size)
      refine ⟨c :: before, after, rfl, ?_, fun d hd => ?_⟩
      · rw [byteLength]
        omega
      · have := hnext d hd
        rw [byteLength]
        omega
    · refine ⟨[], c :: cs, rfl, Nat.zero_le _, ?_⟩
      rintro d ⟨⟩
      rw [byteLength]
      omega

theorem positionAt_wholeUpTo (h : WholeUpTo source.toList offset before after) :
    positionAt source offset = behind before := by
  obtain ⟨hsplit, hwithin, hnext⟩ := h
  obtain ⟨n, rfl⟩ := Nat.exists_eq_add_of_le hwithin
  rw [positionAt, hsplit, locate_append, foldl_advance]
  exact locate_of_next (fun c hc => Nat.lt_of_add_lt_add_left (hnext c hc)) _

theorem positionAt_append (h : source.toList = before ++ after) :
    positionAt source (byteLength before) = behind before :=
  positionAt_wholeUpTo ⟨h, Nat.le_refl _, fun c _ => Nat.lt_add_of_pos_right c.utf8Size_pos⟩

/-- Between characters a larger offset has a later position. -/
theorem positionAt_before (ha : IsBoundary source.toList a) (hb : IsBoundary source.toList b) (h : a < b) :
    (positionAt source a).Before (positionAt source b) := by
  obtain ⟨before, inside, after, hsplit, rfl, rfl⟩ := ha.between hb (Nat.le_of_lt h)
  have hinside : inside ≠ [] := by
    rintro rfl
    exact Nat.lt_irrefl _ h
  have hfront : source.toList = before ++ (inside ++ after) := by rw [hsplit, List.append_assoc]
  rw [positionAt_append hfront, ← byteLength_append, positionAt_append hsplit]
  exact before_behind before hinside

theorem positionAt_before_iff (ha : IsBoundary source.toList a) (hb : IsBoundary source.toList b) :
    (positionAt source a).Before (positionAt source b) ↔ a < b := by
  refine ⟨fun h => ?_, positionAt_before ha hb⟩
  rcases Nat.lt_trichotomy a b with hlt | rfl | hgt
  · exact hlt
  · exact absurd h h.asymm
  · exact absurd (positionAt_before hb ha hgt) h.asymm

theorem positionAt_inj (ha : IsBoundary source.toList a) (hb : IsBoundary source.toList b) :
    positionAt source a = positionAt source b ↔ a = b := by
  refine ⟨fun h => ?_, congrArg _⟩
  rcases Nat.lt_trichotomy a b with hlt | heq | hgt
  · exact absurd h (positionAt_before ha hb hlt).ne
  · exact heq
  · exact absurd h.symm (positionAt_before hb ha hgt).ne

end ClassSort
