import ClassSort.Text.Span

/-!
# Reading a text through byte ranges

A text is cut at a byte offset only between two characters. `splitAtByte` is the one place where
bytes are counted; slices, line numbers and edits are all defined through it.
-/

namespace ClassSort

def byteLength : List Char → Nat
  | [] => 0
  | c :: cs => c.utf8Size + byteLength cs

def splitAtByte : List Char → Nat → Option (List Char × List Char)
  | cs, 0 => some ([], cs)
  | [], _ + 1 => none
  | c :: cs, n + 1 =>
    if c.utf8Size ≤ n + 1 then
      (splitAtByte cs (n + 1 - c.utf8Size)).map fun (before, after) => (c :: before, after)
    else none

def dropBytes? : List Char → Nat → Option (List Char)
  | cs, 0 => some cs
  | [], _ + 1 => none
  | c :: cs, n + 1 => if c.utf8Size ≤ n + 1 then dropBytes? cs (n + 1 - c.utf8Size) else none

/-- The characters covered by a range, if it runs forward, within the text and between characters. -/
def sliceChars? (cs : List Char) (s : Span) : Option (List Char) :=
  if s.stop < s.start then none
  else do
    let rest ← dropBytes? cs s.start
    let (inside, _) ← splitAtByte rest (s.stop - s.start)
    some inside

def slice? (text : String) (s : Span) : Option String :=
  (sliceChars? text.toList s).map String.ofList

def Span.fits (s : Span) (cs : List Char) : Bool := (sliceChars? cs s).isSome

theorem byteLength_append (as bs : List Char) :
    byteLength (as ++ bs) = byteLength as + byteLength bs := by
  induction as with
  | nil => simp [byteLength]
  | cons c cs ih => simp [byteLength, ih, Nat.add_assoc]

theorem splitAtByte_zero (cs : List Char) : splitAtByte cs 0 = some ([], cs) := by
  cases cs <;> rfl

theorem dropBytes?_eq_map_splitAtByte (cs : List Char) (n : Nat) :
    dropBytes? cs n = (splitAtByte cs n).map (·.2) := by
  induction cs generalizing n with
  | nil => cases n <;> rfl
  | cons c cs ih =>
    cases n with
    | zero => rfl
    | succ n =>
      simp only [dropBytes?, splitAtByte]
      split
      · rw [ih, Option.map_map]; rfl
      · rfl

/-- A cut gives back the text it was made in, and counts the bytes in front of it. -/
theorem splitAtByte_eq_some {cs before after : List Char} {n : Nat}
    (h : splitAtByte cs n = some (before, after)) :
    cs = before ++ after ∧ byteLength before = n := by
  induction cs generalizing n before after with
  | nil =>
    cases n with
    | zero => simp [splitAtByte] at h; obtain ⟨rfl, rfl⟩ := h; simp [byteLength]
    | succ n => simp [splitAtByte] at h
  | cons c cs ih =>
    cases n with
    | zero => simp [splitAtByte] at h; obtain ⟨rfl, rfl⟩ := h; simp [byteLength]
    | succ n =>
      simp only [splitAtByte] at h
      split at h
      · next hc =>
        obtain ⟨⟨b, a⟩, hs, hp⟩ := Option.map_eq_some_iff.1 h
        simp only [Prod.mk.injEq] at hp
        obtain ⟨rfl, rfl⟩ := hp
        obtain ⟨rfl, hb⟩ := ih hs
        refine ⟨rfl, ?_⟩
        simp only [byteLength, hb]
        omega
      · simp at h

/-- Every place between two characters can be cut. -/
theorem splitAtByte_append (before after : List Char) :
    splitAtByte (before ++ after) (byteLength before) = some (before, after) := by
  induction before with
  | nil => exact splitAtByte_zero after
  | cons c cs ih =>
    have hc := c.utf8Size_pos
    obtain ⟨n, hn⟩ : ∃ n, byteLength (c :: cs) = n + 1 := ⟨byteLength (c :: cs) - 1, by
      simp only [byteLength]; omega⟩
    have hle : c.utf8Size ≤ n + 1 := by rw [← hn]; simp only [byteLength]; omega
    have hsub : n + 1 - c.utf8Size = byteLength cs := by rw [← hn]; simp only [byteLength]; omega
    rw [hn, List.cons_append, splitAtByte, if_pos hle, hsub, ih]
    rfl

/-- A range covers a piece of the text, and its ends count the bytes in front of the piece. -/
theorem sliceChars?_eq_some {cs inside : List Char} {s : Span} : sliceChars? cs s = some inside ↔
    ∃ before after, cs = before ++ inside ++ after ∧ byteLength before = s.start ∧
      s.start + byteLength inside = s.stop := by
  unfold sliceChars?
  constructor
  · intro h
    split at h
    · exact nomatch h
    · next hforward =>
      obtain ⟨rest, hrest, h⟩ := Option.bind_eq_some_iff.mp h
      obtain ⟨⟨cut, after⟩, hcut, h⟩ := Option.bind_eq_some_iff.mp h
      cases h
      rw [dropBytes?_eq_map_splitAtByte] at hrest
      obtain ⟨⟨before, rest⟩, hsplit, rfl⟩ := Option.map_eq_some_iff.mp hrest
      obtain ⟨rfl, hbefore⟩ := splitAtByte_eq_some hsplit
      obtain ⟨rfl, hinside⟩ := splitAtByte_eq_some hcut
      exact ⟨before, after, (List.append_assoc ..).symm, hbefore, by omega⟩
  · rintro ⟨before, after, rfl, hbefore, hinside⟩
    rw [if_neg (by omega), dropBytes?_eq_map_splitAtByte, ← hbefore, List.append_assoc,
      splitAtByte_append]
    have hsize : s.stop - byteLength before = byteLength inside := by omega
    simp [hsize, splitAtByte_append]

end ClassSort
