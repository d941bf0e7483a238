import ClassSort.Json.Decode
import ClassSort.Proofs.Json.Numbers
import ClassSort.Proofs.Text.Trim

/-!
Keys as decimals. However large a key is, it can be read from its decimal form, and so from a JSON string
that holds it. From a JSON number it is read only where JSON has integers, in 64 bits: a larger number
has become a floating-point number before a key is made of it, and then it is refused.
-/

namespace ClassSort.OrderKey

open Json

/-- Reads a key from a text that holds one JSON value. -/
def read? (text : List Char) : Option OrderKey := (parseRaw? text).bind decodeKey

variable {negative : Bool} {m : Nat}

theorem toList_print (n : Int) : (print n).toList = writeInt n := by
  cases n <;> exact String.toList_ofList

/-! ### Decimal forms -/

theorem digit?_eq {c : Char} (hc : isDigit c = true) : digit? c = some (digitValue c) := by
  simp only [isDigit, Bool.and_eq_true, decide_eq_true_eq] at hc
  rw [digit?, if_pos ⟨hc.1, hc.2⟩, digitValue]
  rfl

theorem digits?_eq {ds : List Char} (hds : ∀ d ∈ ds, isDigit d = true) (n : Nat) :
    digits? n ds = some (Nat.ofDigitChars 10 ds n) := by
  induction ds generalizing n with
  | nil => rfl
  | cons d ds ih =>
    have hd := hds d List.mem_cons_self
    rw [digits?, digit?_eq hd, Nat.ofDigitChars_cons, ← digitValue_eq,
      ← ih fun c hc => hds c (List.mem_cons_of_mem d hc)]
    · rfl
    · exact ne_of_isDigit hd rfl

theorem magnitude?_toDigits (m : Nat) : magnitude? (Nat.toDigits 10 m) = some m := by
  obtain ⟨d, ds, hds, hd⟩ := toDigits_eq_cons m
  have hvalue := Nat.ofDigitChars_ten_toDigits (n := m)
  have hall : ∀ c ∈ ds, isDigit c = true := fun c hc =>
    isDigit_of_mem_toDigits (n := m) (hds ▸ List.mem_cons_of_mem d hc)
  rw [hds, Nat.ofDigitChars_cons, Nat.mul_zero, Nat.zero_add] at hvalue
  rw [hds, magnitude?, digit?_eq hd]
  · exact (digits?_eq hall _).trans (congrArg some hvalue)
  · intro c cs h
    exact absurd h (ne_of_isDigit hd rfl)

theorem integer?_spell (negative : Bool) (m : Nat) : integer? (spell negative m) = some (signed negative m) := by
  obtain ⟨d, ds, hds, hd⟩ := toDigits_eq_cons m
  have hplus : d ≠ '+' := ne_of_isDigit hd rfl
  have hminus : d ≠ '-' := ne_of_isDigit hd rfl
  have hmagnitude := magnitude?_toDigits m
  rw [hds] at hmagnitude
  cases negative with
  | true =>
    rw [spell, if_pos rfl, hds, integer?, hmagnitude]
    · rfl
    · rintro rest ⟨⟩
      exact hplus rfl
  | false =>
    rw [spell, if_neg (by simp), hds, integer?, hmagnitude]
    · rfl
    · rintro rest ⟨⟩
      exact hminus rfl
    · rintro rest ⟨⟩
      exact hminus rfl

theorem isDigit_last_spell {c : Char} (hc : c ∈ (spell negative m).getLast?) : isDigit c = true := by
  have hlast : (spell negative m).getLast? = (Nat.toDigits 10 m).getLast? := by
    cases negative with
    | true => exact List.getLast?_append_of_ne_nil ['-'] Nat.toDigits_ne_nil
    | false => rfl
  rw [hlast] at hc
  exact isDigit_of_mem_toDigits (List.mem_of_getLast? hc)

theorem isSolid_spell (negative : Bool) (m : Nat) : IsSolid (spell negative m) := by
  obtain ⟨d, ds, hds, hd⟩ := toDigits_eq_cons m
  refine ⟨?_, ?_, fun c hc => isBlank_of_isDigit (isDigit_last_spell hc)⟩
  · cases negative <;> simp [spell, hds]
  · intro c hc
    cases negative with
    | true =>
      cases hc
      rfl
    | false =>
      rw [spell, if_neg (by simp), hds] at hc
      cases hc
      exact isBlank_of_isDigit hd

/-- An integer of any size is read from its decimal form, with any number of letters `n` behind it and white
space around both. -/
theorem parse?_around {before after : List Char} (hbefore : ∀ c ∈ before, isBlank c = true)
    (hafter : ∀ c ∈ after, isBlank c = true) (negative : Bool) (m k : Nat) :
    parse? (String.ofList (before ++ (spell negative m ++ List.replicate k 'n') ++ after)) =
      some (signed negative m) := by
  have hletters : ∀ c ∈ List.replicate k 'n', c = 'n' := fun c => List.eq_of_mem_replicate
  have hsolid : IsSolid (spell negative m ++ List.replicate k 'n') :=
    (isSolid_spell negative m).append_of_forall fun c hc => by rw [hletters c hc]; rfl
  have hend : dropEnd (· == 'n') (spell negative m) = spell negative m := by
    rw [dropEnd_eq_rdropWhile, List.rdropWhile_eq_self_iff]
    intro hne
    have hdigit := isDigit_last_spell (List.getLast?_eq_some_getLast hne)
    simpa using ne_of_isDigit hdigit rfl
  rw [parse?, String.toList_ofList, trimChars_around hbefore hsolid hafter,
    dropEnd_append (fun c hc => by simp [hletters c hc]), hend, integer?_spell]

theorem parse?_spell (negative : Bool) (m : Nat) :
    parse? (String.ofList (spell negative m)) = some (signed negative m) := by
  have haround := parse?_around (List.forall_mem_nil _) (List.forall_mem_nil _) negative m 0
  rwa [List.replicate_zero, List.append_nil, List.append_nil, List.nil_append] at haround

theorem parse?_print (n : Int) : parse? (print n) = some n := by
  obtain ⟨negative, m, hspell, -, hn⟩ := exists_spell n
  rw [← String.ofList_toList (s := print n), toList_print, hspell, parse?_spell, hn]

/-! ### JSON -/

theorem read?_str (s : String) : read? (str s).write = parse? s := by
  rw [read?, parseRaw?_write (by simp [Fits])]
  rfl

theorem read?_inWord (h : InWord negative m) : read? (spell negative m) = some (signed negative m) := by
  have hread := readValue_inWord endsNumber_nil h 127
  rw [List.append_nil] at hread
  rw [read?, parseRaw?, hread]
  rfl

theorem read?_beyond (h : ¬InWord negative m) : read? (spell negative m) = none := by
  have hread := readValue_beyond endsNumber_nil h 127
  rw [List.append_nil] at hread
  rcases hread with hnone | ⟨x, hfloat⟩
  · rw [read?, parseRaw?, hnone]
    rfl
  · rw [read?, parseRaw?, hfloat]
    rfl

/-- An integer of any size is read from the JSON string that holds its decimal form. The JSON number gives
the same key if it fits 64 bits, signed or unsigned, and otherwise it is refused. So is the zero that has a
sign, which the string may have. -/
theorem read?_integer (n : Int) :
    read? (str (print n)).write = some n ∧
    read? (int n).write = (if -0x8000000000000000 ≤ n ∧ n ≤ u64Max then some n else none) ∧
    (n = 0 → read? (str ("-" ++ print n)).write = some n ∧ read? ('-' :: (int n).write) = none) := by
  refine ⟨?_, ?_, ?_⟩
  · rw [read?_str, parse?_print]
  · obtain ⟨negative, m, hspell, hword, hn⟩ := exists_spell n
    rw [write, hspell]
    split
    · next hfits => rw [read?_inWord (hword.mpr hfits), hn]
    · next hlarge => exact read?_beyond (mt hword.mp hlarge)
  · rintro rfl
    have hzero : ¬InWord true 0 := by simp [InWord]
    exact ⟨(read?_str _).trans (parse?_spell true 0), read?_beyond hzero⟩

/-- The number that follows the last one of 64 bits is refused, and the string that holds it is not. -/
theorem beyond_word_refused : read? "18446744073709551616".toList = none ∧
    read? "\"18446744073709551616\"".toList = some 18446744073709551616 := by
  have hbeyond : ¬InWord false 18446744073709551616 := by simp [InWord, u64Max]
  have hnumber : "18446744073709551616".toList = spell false 18446744073709551616 := by decide
  have hstring : "\"18446744073709551616\"".toList = (str "18446744073709551616").write := by decide
  constructor
  · rw [hnumber, read?_beyond hbeyond]
  · rw [hstring, read?_str]
    exact parse?_spell false 18446744073709551616

end ClassSort.OrderKey
