import ClassSort.Proofs.Json.RoundTrip

/-!
Integers of any size. One that fits 64 bits, with a sign or without, is read as the integer that it is.
Of a larger one only the digits that fit are taken exactly, and it becomes a floating-point number, if it
can be represented at all. So does the zero that has a sign.
-/

namespace ClassSort.Json

def spell (negative : Bool) (m : Nat) : List Char :=
  if negative then '-' :: Nat.toDigits 10 m else Nat.toDigits 10 m

def signed (negative : Bool) (m : Nat) : Int := if negative then -m else m

def InWord (negative : Bool) (m : Nat) : Prop :=
  if negative then 0 < m ∧ m ≤ 0x8000000000000000 else m ≤ u64Max

/-- A floating-point number was read in front of `rest`, unless it was too large for one. -/
def ReadsFloat (read : Option (Json × List Char)) (rest : List Char) : Prop :=
  read = none ∨ ∃ x, read = some (float x, rest)

variable {negative : Bool} {m : Nat} {rest : List Char}

/-- An integer is written with the sign that it has. -/
theorem exists_spell (n : Int) : ∃ negative m, writeInt n = spell negative m ∧
    (InWord negative m ↔ -0x8000000000000000 ≤ n ∧ n ≤ u64Max) ∧ signed negative m = n := by
  cases n with
  | ofNat m =>
    refine ⟨false, m, rfl, ?_, rfl⟩
    rw [InWord, if_neg (by simp)]
    simp only [Int.ofNat_eq_natCast]
    omega
  | negSucc m =>
    refine ⟨true, m + 1, rfl, ?_, rfl⟩
    rw [InWord, if_pos rfl]
    simp only [Int.negSucc_eq, u64Max]
    omega

theorem EndsNumber.dropWhile_isDigit (h : EndsNumber rest) : rest.dropWhile isDigit = rest := by
  cases rest with
  | nil => rfl
  | cons c rest => simp [(h c rfl).1]

/-- Digits of a value beyond 64 bits are taken up to one that does not fit any more. -/
theorem accumulate_cut {ds : List Char} {n : Nat} (count : Nat) (hds : ∀ d ∈ ds, isDigit d = true)
    (hn : n ≤ u64Max) (hmax : u64Max < Nat.ofDigitChars 10 ds n) :
    ∃ value taken d more, accumulate n count (ds ++ rest) = (value, taken, d :: more ++ rest) ∧
      ∀ c ∈ d :: more, isDigit c = true := by
  induction ds generalizing n count with
  | nil => exact absurd hmax (Nat.not_lt.mpr hn)
  | cons d ds ih =>
    by_cases hfirst : n * 10 + digitValue d ≤ u64Max
    · rw [Nat.ofDigitChars_cons, Nat.mul_comm 10, ← digitValue_eq] at hmax
      rw [List.cons_append, accumulate, if_pos (by simp [hds d List.mem_cons_self, hfirst])]
      exact ih (count + 1) (fun c hc => hds c (List.mem_cons_of_mem d hc)) hfirst hmax
    · exact ⟨n, count, d, ds, by rw [List.cons_append, accumulate, if_neg (by simp [hfirst])], hds⟩

theorem readsFloat_makeFloat (negative : Bool) (significand : Nat) (e : Int) :
    ReadsFloat (do some (← makeFloat negative significand e, rest)) rest := by
  unfold makeFloat
  cases hsignificand : Binary64.ofNat significand with
  | none => exact .inl rfl
  | some x =>
    cases hscale : scale 2000 x (max e (-500000)) with
    | none => exact .inl (by simp [hscale])
    | some y => exact .inr ⟨y.withSign negative, by simp [hscale]⟩

theorem readTail_end (hrest : EndsNumber rest) (negative : Bool) (significand : Nat) (e : Int) :
    ReadsFloat (readTail negative significand e rest) rest := by
  unfold readTail
  split
  · next tail => exact absurd rfl (hrest '.' rfl).2.1
  · next c tail hc =>
    obtain ⟨-, -, hlower, hupper⟩ := hrest c rfl
    rw [if_neg (by simp [hlower, hupper])]
    exact readsFloat_makeFloat negative significand e
  · exact readsFloat_makeFloat negative significand e

theorem readNumber_beyond (hrest : EndsNumber rest) (hm : u64Max < m) :
    ReadsFloat (readNumber negative (Nat.toDigits 10 m ++ rest)) rest := by
  have hdigits : ∀ d ∈ Nat.toDigits 10 m, isDigit d = true := fun d => isDigit_of_mem_toDigits
  have hmax : u64Max < Nat.ofDigitChars 10 (Nat.toDigits 10 m) 0 := by rwa [Nat.ofDigitChars_ten_toDigits]
  obtain ⟨value, taken, c, more, hread, hmore⟩ := accumulate_cut 0 hdigits (Nat.zero_le u64Max) hmax
  obtain ⟨d, ds, hds, hdigit⟩ := toDigits_eq_cons m
  have hd : d ≠ '0' := head_toDigits_ne_zero (Nat.lt_of_le_of_lt (Nat.zero_le u64Max) hm) d (by rw [hds]; rfl)
  have htaken : (c :: more ++ rest).takeWhile isDigit = c :: more := by
    rw [List.takeWhile_append_of_pos hmore, hrest.no_digits, List.append_nil]
  have hleft : (c :: more ++ rest).dropWhile isDigit = rest := by
    rw [List.dropWhile_append_of_pos hmore, hrest.dropWhile_isDigit]
  rw [hds, List.cons_append] at hread
  rw [hds, List.cons_append, readNumber, if_pos hdigit, hread]
  · dsimp only
    rw [htaken, if_neg (by simp), hleft]
    exact readTail_end hrest negative value _
  · simp [hd]

theorem finish_float (hrest : EndsNumber rest) (h : ¬InWord true m) :
    ReadsFloat (readNumber.finish true m rest) rest := by
  have hfit : m = 0 ∨ 0x8000000000000000 < m := by
    simp only [InWord, if_true] at h
    omega
  have hfinish : readNumber.finish true m rest = (do some (← makeFloat true m 0, rest)) := by
    simp [readNumber.finish, hrest.not_fraction, hfit]
  rw [hfinish]
  exact readsFloat_makeFloat true m 0

theorem readValue_spell (negative : Bool) (m depth : Nat) (rest : List Char) :
    readValue depth (spell negative m ++ rest) = readNumber negative (Nat.toDigits 10 m ++ rest) := by
  cases negative with
  | true => exact readValue_minus depth _
  | false =>
    obtain ⟨d, ds, hds, hd⟩ := toDigits_eq_cons m
    rw [spell, if_neg (by simp), hds, List.cons_append, readValue_digit hd]

/-- An integer of 64 bits is read as what it is. -/
theorem readValue_inWord (hrest : EndsNumber rest) (h : InWord negative m) (depth : Nat) :
    readValue depth (spell negative m ++ rest) = some (int (signed negative m), rest) := by
  rw [readValue_spell]
  cases negative with
  | true =>
    obtain ⟨hpos, hm⟩ := h
    rw [readNumber_digits (Nat.le_trans hm (by decide)) hrest, finish_negative hrest hpos hm]
    rfl
  | false => rw [readNumber_digits h hrest, finish_int hrest]; rfl

/-- Any other integer is read as a floating-point number. -/
theorem readValue_beyond (hrest : EndsNumber rest) (h : ¬InWord negative m) (depth : Nat) :
    ReadsFloat (readValue depth (spell negative m ++ rest)) rest := by
  rw [readValue_spell]
  by_cases hm : m ≤ u64Max
  · cases negative with
    | true =>
      rw [readNumber_digits hm hrest]
      exact finish_float hrest h
    | false => exact absurd hm h
  · exact readNumber_beyond hrest (Nat.lt_of_not_le hm)

end ClassSort.Json
