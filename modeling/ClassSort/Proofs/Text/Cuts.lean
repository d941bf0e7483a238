import ClassSort.Text.Slice

/-!
Where a text can be cut: between two of its characters, and at its ends. A range can be read, and
replaced, exactly if it runs forward and ends within the text, and neither end is inside a character.
-/

namespace ClassSort

/-- The first `n` bytes of a text are whole characters of it. -/
def IsBoundary (cs : List Char) (n : Nat) : Prop :=
  ∃ before after, cs = before ++ after ∧ byteLength before = n

structure Span.Cuts (s : Span) (cs : List Char) : Prop where
  forward : s.start ≤ s.stop
  within : s.stop ≤ byteLength cs
  start : IsBoundary cs s.start
  stop : IsBoundary cs s.stop

/-- A text cut at two places. -/
theorem append_cut {left gap front back : List Char} (h : left ++ gap = front ++ back)
    (hle : byteLength left ≤ byteLength front) :
    ∃ between, front = left ++ between ∧ gap = between ++ back := by
  rcases List.append_eq_append_iff.mp h with hcut | ⟨between, rfl, rfl⟩
  · exact hcut
  · have hnone : between = [] := by
      rw [byteLength_append] at hle
      cases between with
      | nil => rfl
      | cons c cs =>
        have hc := c.utf8Size_pos
        simp only [byteLength] at hle
        omega
    exact ⟨[], by simp [hnone]⟩

theorem byteLength_pos {cs : List Char} (h : cs ≠ []) : 0 < byteLength cs := by
  obtain ⟨c, cs, rfl⟩ := List.exists_cons_of_ne_nil h
  exact Nat.add_pos_left c.utf8Size_pos _

theorem append_inj_of_byteLength {as bs cs ds : List Char} (h : as ++ bs = cs ++ ds)
    (hlength : byteLength as = byteLength cs) : as = cs ∧ bs = ds := by
  have hcut := splitAtByte_append as bs
  rw [h, hlength, splitAtByte_append] at hcut
  cases hcut
  exact ⟨rfl, rfl⟩

variable {cs : List Char} {s : Span} {m n : Nat}

theorem IsBoundary.le (h : IsBoundary cs n) : n ≤ byteLength cs := by
  obtain ⟨before, after, rfl, rfl⟩ := h
  rw [byteLength_append]
  exact Nat.le_add_right _ _

/-- Between two boundaries stands a piece of the text. -/
theorem IsBoundary.between (hm : IsBoundary cs m) (hn : IsBoundary cs n) (hle : m ≤ n) :
    ∃ before inside after, cs = before ++ inside ++ after ∧ byteLength before = m ∧
      m + byteLength inside = n := by
  obtain ⟨before, rest, rfl, rfl⟩ := hm
  obtain ⟨front, after, hcut, rfl⟩ := hn
  obtain ⟨inside, rfl, rfl⟩ := append_cut hcut hle
  exact ⟨before, inside, after, (List.append_assoc ..).symm, rfl, (byteLength_append ..).symm⟩

theorem Span.cuts_of_boundaries (hstart : IsBoundary cs s.start) (hstop : IsBoundary cs s.stop)
    (hle : s.start ≤ s.stop) : s.Cuts cs :=
  ⟨hle, hstop.le, hstart, hstop⟩

theorem Span.Cuts.exists_slice (h : s.Cuts cs) : ∃ inside, sliceChars? cs s = some inside := by
  obtain ⟨before, inside, after, hsplit, hstart, hstop⟩ := h.start.between h.stop h.forward
  exact ⟨inside, sliceChars?_eq_some.mpr ⟨before, after, hsplit, hstart, hstop⟩⟩

theorem Span.cuts_of_slice {inside : List Char} (h : sliceChars? cs s = some inside) : s.Cuts cs := by
  obtain ⟨before, after, rfl, hstart, hstop⟩ := sliceChars?_eq_some.mp h
  refine cuts_of_boundaries ⟨before, inside ++ after, List.append_assoc .., hstart⟩
    ⟨before ++ inside, after, rfl, ?_⟩ ?_
  · rw [byteLength_append, hstart, hstop]
  · rw [← hstop]
    exact Nat.le_add_right _ _

theorem Span.cuts_of_text {source text : String} (h : slice? source s = some text) :
    s.Cuts source.toList := by
  obtain ⟨inside, hslice, -⟩ := Option.map_eq_some_iff.mp h
  exact cuts_of_slice hslice

theorem sliceChars?_of_slice? {source text : String} (h : slice? source s = some text) :
    sliceChars? source.toList s = some text.toList := by
  obtain ⟨inside, hslice, rfl⟩ := Option.map_eq_some_iff.mp h
  rw [String.toList_ofList]
  exact hslice

theorem Span.fits_iff_cuts : s.fits cs = true ↔ s.Cuts cs := by
  rw [Span.fits, Option.isSome_iff_exists]
  constructor
  · rintro ⟨inside, h⟩
    exact cuts_of_slice h
  · exact Span.Cuts.exists_slice

/-- Of what a range covers, a piece that begins and ends further inside. -/
theorem sliceChars?_between {front inside back : List Char} {start stop : Nat}
    (h : sliceChars? cs ⟨start, stop + byteLength back⟩ = some (front ++ inside ++ back)) :
    sliceChars? cs ⟨start + byteLength front, stop⟩ = some inside := by
  obtain ⟨before, after, rfl, hstart, hstop⟩ := sliceChars?_eq_some.mp h
  refine sliceChars?_eq_some.mpr ⟨before ++ front, back ++ after, by simp, ?_, ?_⟩
  · rw [byteLength_append, hstart]
  · simp only [byteLength_append] at hstop ⊢
    omega

/-- A range within a text reads the same where the text is a part of another one. -/
theorem sliceChars?_embedded {front text back : List Char} (hs : s.stop ≤ byteLength text) :
    sliceChars? (front ++ text ++ back) (s.shift (byteLength front)) = sliceChars? text s := by
  refine Option.ext fun inside => ?_
  rw [sliceChars?_eq_some, sliceChars?_eq_some]
  constructor
  · rintro ⟨before, after, hsplit, hstart, hstop⟩
    simp only [Span.shift] at hstart hstop
    simp only [List.append_assoc] at hsplit
    obtain ⟨lead, rfl, hrest⟩ := append_cut hsplit (by omega)
    rw [byteLength_append] at hstart
    have hinside : byteLength (lead ++ inside) ≤ byteLength text := by
      rw [byteLength_append]
      omega
    have hcut : lead ++ inside ++ after = text ++ back := by rw [List.append_assoc, hrest]
    obtain ⟨trail, htext, -⟩ := append_cut hcut hinside
    exact ⟨lead, trail, htext, by omega, by omega⟩
  · rintro ⟨before, after, rfl, hstart, hstop⟩
    refine ⟨front ++ before, after ++ back, by simp, ?_, ?_⟩
    · rw [byteLength_append, hstart, Nat.add_comm]
      rfl
    · simp only [Span.shift]
      omega

end ClassSort
