import ClassSort.Json.Read
import ClassSort.Json.Write
import ClassSort.Text.Blank
import Mathlib.Data.List.Basic
import Mathlib.Tactic.SplitIfs

/-!
A value comes back from its text. Reading undoes every escape and every digit, and what stands behind
a value is left alone as long as no number could go on there. Values are canonical and their integers
have 64 bits; how deep they may be nested is what the reader allows.
-/

namespace ClassSort.Json

mutual

/-- A value that a text can hold: every integer has 64 bits with or without a sign, every object has
its names once and in order, and no more than so many brackets stand around anything. -/
def Fits : Nat → Json → Prop
  | _, null | _, bool _ | _, str _ => True
  | _, int n => -0x8000000000000000 ≤ n ∧ n ≤ u64Max
  | _, float _ => False
  | 0, arr _ | 0, obj _ => False
  | depth + 1, arr items => ItemsFit depth items
  | depth + 1, obj fields => FieldsFit depth fields ∧ (fields.map (·.1)).Pairwise (· < ·)

def ItemsFit : Nat → List Json → Prop
  | _, [] => True
  | depth, v :: items => Fits depth v ∧ ItemsFit depth items

def FieldsFit : Nat → List (String × Json) → Prop
  | _, [] => True
  | depth, (_, v) :: fields => Fits depth v ∧ FieldsFit depth fields

end

def EndsNumber (rest : List Char) : Prop :=
  ∀ c ∈ rest.head?, isDigit c = false ∧ c ≠ '.' ∧ c ≠ 'e' ∧ c ≠ 'E'

theorem endsNumber_nil : EndsNumber [] := by simp [EndsNumber]

theorem endsNumber_cons {c : Char} {rest : List Char}
    (h : isDigit c = false ∧ c ≠ '.' ∧ c ≠ 'e' ∧ c ≠ 'E') : EndsNumber (c :: rest) := by
  rintro d ⟨⟩
  exact h

theorem EndsNumber.no_digits {rest : List Char} (h : EndsNumber rest) : rest.takeWhile isDigit = [] := by
  cases rest with
  | nil => rfl
  | cons c rest => simp [(h c rfl).1]

theorem EndsNumber.not_fraction {rest : List Char} (h : EndsNumber rest) :
    (rest.head?.any fun c => c == '.' || c == 'e' || c == 'E') = false := by
  cases rest with
  | nil => rfl
  | cons c rest => simpa [and_assoc] using (h c rfl).2

/-! ### Strings -/

theorem hexValue?_hexDigit : ∀ n < 16, hexValue? (hexDigit n) = some n := by decide

/-- A character that is written by its code comes back. -/
theorem readUnit_control {c : Char} (hc : c.toNat < 0x20) (rest : List Char) :
    readUnit ('0' :: '0' :: hexDigit (c.toNat / 16) :: hexDigit (c.toNat % 16) :: rest) =
      some (c, rest) := by
  have hzero : hexValue? '0' = some 0 := by decide
  have hhigh := hexValue?_hexDigit (c.toNat / 16) (by omega)
  have hlow := hexValue?_hexDigit (c.toNat % 16) (by omega)
  have hsum : c.toNat / 16 * 16 + c.toNat % 16 = c.toNat := Nat.div_add_mod' ..
  have hplain : c.toNat < 0xd800 := by omega
  simp [readUnit, readHex4, hzero, hhigh, hlow, hsum, hplain, Char.ofNat_toNat]

/-- Reads a character that stands for itself. -/
theorem readChars_plain {c : Char} (hquote : c ≠ '"') (hslash : c ≠ '\\') (hc : 0x20 ≤ c.toNat)
    (fuel : Nat) (rest : List Char) :
    readChars (fuel + 1) (c :: rest) =
      (do
        let (cs, rest) ← readChars fuel rest
        some (c :: cs, rest)) := by
  rw [readChars.eq_6]
  · rw [if_neg]
    simp [hslash, hc]
  · simpa using hquote
  · intro _ h
    simp [hslash] at h
  · intro _ _ h
    simp [hslash] at h

/-- Reading takes an escaped character as the one it stands for. -/
theorem readChars_escape (c : Char) (fuel : Nat) (rest : List Char) :
    readChars (fuel + 1) (escape c ++ rest) =
      (do
        let (cs, rest) ← readChars fuel rest
        some (c :: cs, rest)) := by
  simp only [escape, beq_iff_eq]
  by_cases hquote : c = '"'
  · simp [hquote, readChars, simpleEscape?]
  by_cases hslash : c = '\\'
  · simp [hslash, readChars, simpleEscape?]
  by_cases hback : c = '\x08'
  · simp [hback, readChars, simpleEscape?]
  by_cases hform : c = '\x0c'
  · simp [hform, readChars, simpleEscape?]
  by_cases hline : c = '\n'
  · simp [hline, readChars, simpleEscape?]
  by_cases hreturn : c = '\r'
  · simp [hreturn, readChars, simpleEscape?]
  by_cases htab : c = '\t'
  · simp [htab, readChars, simpleEscape?]
  by_cases hcontrol : c.toNat < 0x20
  · simp [hquote, hslash, hback, hform, hline, hreturn, htab, hcontrol, readChars, readUnit_control]
  · simp only [hquote, hslash, hback, hform, hline, hreturn, htab, hcontrol, if_false]
    exact readChars_plain hquote hslash (Nat.le_of_not_lt hcontrol) fuel rest

theorem readChars_escaped (cs : List Char) (rest : List Char) : ∀ {fuel : Nat}, cs.length < fuel →
    readChars fuel (cs.flatMap escape ++ '"' :: rest) = some (cs, rest) := by
  induction cs with
  | nil =>
    rintro (_ | fuel) hfuel
    · simp at hfuel
    · rfl
  | cons c cs ih =>
    rintro (_ | fuel) hfuel
    · simp at hfuel
    · rw [List.flatMap_cons, List.append_assoc, readChars_escape, ih (Nat.lt_of_succ_lt_succ hfuel)]
      rfl

theorem length_le_escaped (cs : List Char) : cs.length ≤ (cs.flatMap escape).length := by
  induction cs with
  | nil => simp
  | cons c cs ih =>
    have hc : 0 < (escape c).length := by
      unfold escape
      split_ifs <;> simp
    simp only [List.flatMap_cons, List.length_append, List.length_cons]
    omega

/-- A string comes back from behind its opening quote. -/
theorem readString_write (s : String) (rest : List Char) :
    readString (s.toList.flatMap escape ++ '"' :: rest) = some (s, rest) := by
  have hfuel : s.toList.length < (s.toList.flatMap escape ++ '"' :: rest).length := by
    have := length_le_escaped s.toList
    simp only [List.length_append, List.length_cons]
    omega
  rw [readString, readChars_escaped _ _ hfuel]
  exact congrArg (fun s => some (s, rest)) String.ofList_toList

/-! ### Integers -/

theorem isDigit_eq (c : Char) : isDigit c = c.isDigit := by
  simp only [isDigit, Char.isDigit, Char.toNat, ge_iff_le, UInt32.le_iff_toNat_le]
  rfl

theorem isDigit_of_mem_toDigits {n : Nat} {c : Char} (hc : c ∈ Nat.toDigits 10 n) : isDigit c = true := by
  rw [isDigit_eq]
  exact Nat.isDigit_of_mem_toDigits (by decide) (by decide) hc

theorem toDigits_eq_cons (n : Nat) : ∃ d ds, Nat.toDigits 10 n = d :: ds ∧ isDigit d = true := by
  obtain ⟨d, ds, hds⟩ := List.exists_cons_of_ne_nil (Nat.toDigits_ne_nil (n := n) (b := 10))
  exact ⟨d, ds, hds, isDigit_of_mem_toDigits (n := n) (by simp [hds])⟩

theorem ne_of_isDigit {c d : Char} (hc : isDigit c = true) (hd : isDigit d = false) : c ≠ d := by
  rintro rfl
  rw [hc] at hd
  cases hd

theorem isBlank_of_isDigit {c : Char} (hc : isDigit c = true) : isBlank c = false := by
  simp only [isDigit, Bool.and_eq_true, decide_eq_true_eq] at hc
  simp only [isBlank, Bool.or_eq_false_iff, Bool.and_eq_false_imp, decide_eq_true_eq, decide_eq_false_iff_not,
    beq_eq_false_iff_ne]
  omega

theorem digitValue_eq (c : Char) : digitValue c = c.toNat - '0'.toNat := rfl

theorem le_ofDigitChars (ds : List Char) (n : Nat) : n ≤ Nat.ofDigitChars 10 ds n := by
  induction ds generalizing n with
  | nil => exact Nat.le_refl n
  | cons d ds ih =>
    rw [Nat.ofDigitChars_cons]
    exact Nat.le_trans (by omega) (ih _)

/-- Digits are taken to the end as long as the value has 64 bits. -/
theorem accumulate_digits {ds rest : List Char} (hrest : EndsNumber rest) {n : Nat} (count : Nat)
    (hds : ∀ d ∈ ds, isDigit d = true) (hmax : Nat.ofDigitChars 10 ds n ≤ u64Max) :
    accumulate n count (ds ++ rest) = (Nat.ofDigitChars 10 ds n, count + ds.length, rest) := by
  induction ds generalizing n count with
  | nil =>
    cases rest with
    | nil => rfl
    | cons c rest => simp [accumulate, (hrest c rfl).1, Nat.ofDigitChars]
  | cons d ds ih =>
    rw [Nat.ofDigitChars_cons, Nat.mul_comm 10, ← digitValue_eq] at hmax ⊢
    have hfirst := Nat.le_trans (le_ofDigitChars ds _) hmax
    have hd := hds d List.mem_cons_self
    rw [List.cons_append, accumulate, if_pos (by simp [hd, hfirst]),
      ih _ (fun c hc => hds c (List.mem_cons_of_mem d hc)) hmax, List.length_cons]
    simp only [Prod.mk.injEq, and_true, true_and]
    omega

/-- Only zero begins with the digit zero. -/
theorem head_toDigits_ne_zero {n : Nat} (hn : 0 < n) : ∀ d ∈ (Nat.toDigits 10 n).head?, d ≠ '0' := by
  induction n using Nat.strongRecOn with
  | ind n ih =>
    intro d hd
    by_cases hlt : n < 10
    · rw [Nat.toDigits_of_lt_base hlt] at hd
      cases hd
      have hall : ∀ m < 10, 0 < m → Nat.digitChar m ≠ '0' := by decide
      exact hall n hlt hn
    · rw [Nat.toDigits_of_base_le (by decide) (Nat.le_of_not_lt hlt),
        List.head?_append_of_ne_nil _ Nat.toDigits_ne_nil] at hd
      exact ih (n / 10) (by omega) (by omega) d hd

/-- A number in 64 bits is read to its last digit. -/
theorem readNumber_digits {n : Nat} (hn : n ≤ u64Max) {rest : List Char} (hrest : EndsNumber rest)
    (negative : Bool) :
    readNumber negative (Nat.toDigits 10 n ++ rest) = readNumber.finish negative n rest := by
  have hvalue : Nat.ofDigitChars 10 (Nat.toDigits 10 n) 0 = n := Nat.ofDigitChars_ten_toDigits
  have hread := accumulate_digits hrest 0 (fun d => isDigit_of_mem_toDigits) (by rwa [hvalue])
  obtain rfl | hpos := Nat.eq_zero_or_pos n
  · cases rest with
    | nil => rfl
    | cons c rest => simp [readNumber, (hrest c rfl).1]
  · obtain ⟨d, ds, hds, hdigit⟩ := toDigits_eq_cons n
    have hd : d ≠ '0' := head_toDigits_ne_zero hpos d (by rw [hds]; rfl)
    rw [hvalue, hds, List.cons_append] at hread
    rw [hds, List.cons_append, readNumber, if_pos hdigit, hread]
    · simp [hrest.no_digits]
    · simp [hd]

theorem finish_int {rest : List Char} (hrest : EndsNumber rest) (n : Nat) :
    readNumber.finish false n rest = some (int n, rest) := by
  simp [readNumber.finish, hrest.not_fraction]

theorem finish_negative {rest : List Char} (hrest : EndsNumber rest) {n : Nat} (hpos : 0 < n)
    (hn : n ≤ 0x8000000000000000) : readNumber.finish true n rest = some (int (-(n : Int)), rest) := by
  have hfit : ¬(n = 0 ∨ 0x8000000000000000 < n) := by omega
  simp [readNumber.finish, hrest.not_fraction, hfit]

/-! ### Values -/

def Opens (c : Char) : Prop := isSpace c = false ∧ c ≠ ']' ∧ c ≠ '\x7d'

theorem opens_of_isDigit {c : Char} (hc : isDigit c = true) : Opens c := by
  refine ⟨?_, ne_of_isDigit hc rfl, ne_of_isDigit hc rfl⟩
  simp only [isSpace, Bool.or_eq_false_iff, beq_eq_false_iff_ne]
  exact ⟨⟨⟨ne_of_isDigit hc rfl, ne_of_isDigit hc rfl⟩, ne_of_isDigit hc rfl⟩, ne_of_isDigit hc rfl⟩

theorem write_eq_cons {depth : Nat} {v : Json} (h : Fits depth v) :
    ∃ c cs, v.write = c :: cs ∧ Opens c := by
  cases v with
  | null => exact ⟨_, _, rfl, by decide, by decide, by decide⟩
  | bool b => cases b <;> exact ⟨_, _, rfl, by decide, by decide, by decide⟩
  | float x => simp [Fits] at h
  | int n =>
    cases n with
    | ofNat n =>
      obtain ⟨d, ds, hds, hd⟩ := toDigits_eq_cons n
      exact ⟨d, ds, hds, opens_of_isDigit hd⟩
    | negSucc n => exact ⟨_, _, rfl, by decide, by decide, by decide⟩
  | str s => exact ⟨_, _, rfl, by decide, by decide, by decide⟩
  | arr items => exact ⟨_, _, rfl, by decide, by decide, by decide⟩
  | obj fields => exact ⟨_, _, rfl, by decide, by decide, by decide⟩

theorem skipSpace_cons {c : Char} (hc : isSpace c = false) (cs : List Char) :
    skipSpace (c :: cs) = c :: cs := by
  rw [skipSpace, List.dropWhile_cons_of_neg (by simp [hc])]

/-- What begins with a digit is a number. -/
theorem readValue_digit {d : Char} (hd : isDigit d = true) (depth : Nat) (cs : List Char) :
    readValue depth (d :: cs) = readNumber false (d :: cs) := by
  rw [readValue.eq_def]
  simp only [skipSpace_cons (opens_of_isDigit hd).1]
  split
  all_goals first
    | rfl
    | (next heq => injection heq with hfirst _; subst hfirst; exact absurd hd (by decide))

theorem readValue_minus (depth : Nat) (cs : List Char) : readValue depth ('-' :: cs) = readNumber true cs := by
  rw [readValue.eq_def]
  rfl

theorem readValue_quote (depth : Nat) (cs : List Char) :
    readValue depth ('"' :: cs) = (readString cs).map fun (s, rest) => (str s, rest) := by
  rw [readValue.eq_def]
  show (readString cs).bind (fun (s, rest) => some (str s, rest)) = _
  cases readString cs <;> rfl

theorem readValue_bracket {c : Char} (hc : Opens c) (depth : Nat) (cs : List Char) :
    readValue (depth + 1) ('[' :: c :: cs) =
      (readItems (readValue depth) (c :: cs).length (c :: cs)).map fun (items, rest) => (arr items, rest) := by
  rw [readValue.eq_def]
  simp only [skipSpace_cons hc.1, skipSpace_cons (c := '[') (by decide)]
  split
  · next heq =>
    injection heq with hfirst _
    exact absurd hfirst hc.2.1
  · cases readItems (readValue depth) (c :: cs).length (c :: cs) <;> rfl

theorem readValue_brace (depth : Nat) (cs : List Char) :
    readValue (depth + 1) ('\x7b' :: '"' :: cs) =
      (readFields (readValue depth) ('"' :: cs).length ('"' :: cs)).map
        fun (fields, rest) => (obj fields, rest) := by
  rw [readValue.eq_def]
  simp only [skipSpace_cons (c := '"') (by decide), skipSpace_cons (c := '\x7b') (by decide)]
  cases readFields (readValue depth) ('"' :: cs).length ('"' :: cs) <;> rfl

theorem readValue_int {n : Int} (h : -0x8000000000000000 ≤ n ∧ n ≤ u64Max) (depth : Nat)
    {rest : List Char} (hrest : EndsNumber rest) :
    readValue depth (writeInt n ++ rest) = some (int n, rest) := by
  cases n with
  | ofNat n =>
    obtain ⟨d, ds, hds, hd⟩ := toDigits_eq_cons n
    rw [writeInt, hds, List.cons_append, readValue_digit hd, ← List.cons_append, ← hds,
      readNumber_digits (Int.ofNat_le.mp h.2) hrest, finish_int hrest]
    rfl
  | negSucc n =>
    have hn : n + 1 ≤ 0x8000000000000000 := by omega
    rw [writeInt, List.cons_append, readValue_minus,
      readNumber_digits (Nat.le_trans hn (by decide)) hrest, finish_negative hrest (Nat.succ_pos n) hn]
    rfl

section

variable {value : List Char → Option (Json × List Char)} {v : Json} {cs rest : List Char}

theorem readItems_last (h : value cs = some (v, ']' :: rest)) (fuel : Nat) :
    readItems value (fuel + 1) cs = some ([v], rest) := by
  rw [readItems, h]
  rfl

theorem readItems_more (h : value cs = some (v, ',' :: rest)) (fuel : Nat) :
    readItems value (fuel + 1) cs =
      (readItems value fuel rest).map fun (items, rest) => (v :: items, rest) := by
  rw [readItems, h]
  show (readItems value fuel rest).bind (fun (items, rest) => some (v :: items, rest)) = _
  cases readItems value fuel rest <;> rfl

theorem readFields_last (h : value cs = some (v, '\x7d' :: rest)) (name : String) (fuel : Nat) :
    readFields value (fuel + 1) (writeString name ++ ':' :: cs) = some ([(name, v)], rest) := by
  rw [writeString, List.append_assoc, List.cons_append, readFields]
  have hcolon : skipSpace (':' :: cs) = ':' :: cs := skipSpace_cons (by decide) cs
  have hbrace : skipSpace ('\x7d' :: rest) = '\x7d' :: rest := skipSpace_cons (by decide) rest
  simp only [skipSpace_cons (c := '"') (by decide), List.singleton_append, readString_write,
    Option.bind_eq_bind, Option.bind_some, hcolon, h, hbrace]

theorem readFields_more (h : value cs = some (v, ',' :: rest)) (name : String) (fuel : Nat) :
    readFields value (fuel + 1) (writeString name ++ ':' :: cs) =
      (readFields value fuel rest).map fun (fields, rest) => ((name, v) :: fields, rest) := by
  rw [writeString, List.append_assoc, List.cons_append, readFields]
  have hcolon : skipSpace (':' :: cs) = ':' :: cs := skipSpace_cons (by decide) cs
  have hcomma : skipSpace (',' :: rest) = ',' :: rest := skipSpace_cons (by decide) rest
  simp only [skipSpace_cons (c := '"') (by decide), List.singleton_append, readString_write,
    Option.bind_eq_bind, Option.bind_some, hcolon, h, hcomma]
  cases readFields value fuel rest <;> rfl

end

theorem writeItems_more (v : Json) {items : List Json} (h : items ≠ []) :
    writeItems (v :: items) = v.write ++ ',' :: writeItems items := by
  rw [writeItems]
  exact h

theorem writeFields_more (name : String) (v : Json) {fields : List (String × Json)} (h : fields ≠ []) :
    writeFields ((name, v) :: fields) = writeString name ++ ':' :: v.write ++ ',' :: writeFields fields := by
  rw [writeFields]
  exact h

theorem writeItems_eq_cons {depth : Nat} {v : Json} (h : Fits depth v) (items : List Json) :
    ∃ c cs, writeItems (v :: items) = c :: cs ∧ Opens c := by
  obtain ⟨c, cs, hcs, hc⟩ := write_eq_cons h
  by_cases hitems : items = []
  · exact ⟨c, cs, by rw [hitems, writeItems, hcs], hc⟩
  · exact ⟨c, _, by rw [writeItems_more v hitems, hcs, List.cons_append], hc⟩

theorem writeFields_eq_cons (field : String × Json) (fields : List (String × Json)) :
    ∃ cs, writeFields (field :: fields) = '"' :: cs := by
  by_cases hfields : fields = []
  · exact ⟨_, by rw [hfields, writeFields, writeString, List.cons_append, List.cons_append]⟩
  · exact ⟨_, by rw [writeFields_more _ _ hfields, writeString, List.cons_append, List.cons_append,
      List.cons_append]⟩

theorem length_le_writeItems : ∀ {items : List Json} {depth : Nat}, ItemsFit depth items →
    items.length ≤ (writeItems items).length
  | [], _, _ => Nat.zero_le _
  | v :: items, _, h => by
    rw [ItemsFit] at h
    by_cases hitems : items = []
    · obtain ⟨c, cs, hcs, -⟩ := writeItems_eq_cons h.1 items
      rw [hcs, hitems]
      simp
    · have ih := length_le_writeItems h.2
      simp only [writeItems_more v hitems, List.length_append, List.length_cons]
      omega

theorem length_le_writeFields : ∀ fields : List (String × Json), fields.length ≤ (writeFields fields).length
  | [] => Nat.zero_le _
  | field :: fields => by
    by_cases hfields : fields = []
    · obtain ⟨cs, hcs⟩ := writeFields_eq_cons field fields
      rw [hcs, hfields]
      simp
    · have ih := length_le_writeFields fields
      simp only [writeFields_more _ _ hfields, List.length_append, List.length_cons]
      omega

mutual

/-- A value comes back from its text, whatever stands behind it. -/
theorem readValue_write : ∀ {v : Json} {depth : Nat}, Fits depth v → ∀ {rest : List Char},
    EndsNumber rest → readValue depth (v.write ++ rest) = some (v, rest)
  | null, _, _, _, _ => by rw [readValue.eq_def]; rfl
  | bool true, _, _, _, _ => by rw [readValue.eq_def]; rfl
  | bool false, _, _, _, _ => by rw [readValue.eq_def]; rfl
  | int n, depth, h, _, hrest => by
    rw [Fits] at h
    exact readValue_int h depth hrest
  | float _, _, h, _, _ => by simp [Fits] at h
  | str s, _, _, rest, _ => by
    rw [write, writeString, List.append_assoc, List.cons_append, readValue_quote, List.singleton_append,
      readString_write]
    rfl
  | arr [], depth + 1, _, _, _ => by rw [readValue.eq_def]; rfl
  | arr (v :: items), depth + 1, h, rest, _ => by
    rw [Fits] at h
    have hfuel : (v :: items).length ≤ (writeItems (v :: items) ++ ']' :: rest).length := by
      rw [List.length_append]
      exact Nat.le_trans (length_le_writeItems h) (Nat.le_add_right _ _)
    have hitems := readItems_write h (List.cons_ne_nil v items) hfuel rest
    rw [ItemsFit] at h
    obtain ⟨c, cs, hcs, hc⟩ := writeItems_eq_cons h.1 items
    rw [hcs, List.cons_append] at hitems
    rw [write, List.append_assoc, List.cons_append, List.singleton_append, hcs, List.cons_append,
      readValue_bracket hc, hitems]
    rfl
  | obj [], depth + 1, _, _, _ => by rw [readValue.eq_def]; rfl
  | obj (field :: fields), depth + 1, h, rest, _ => by
    rw [Fits] at h
    have hfuel : (field :: fields).length ≤ (writeFields (field :: fields) ++ '\x7d' :: rest).length := by
      rw [List.length_append]
      exact Nat.le_trans (length_le_writeFields _) (Nat.le_add_right _ _)
    have hfields := readFields_write h.1 (List.cons_ne_nil field fields) hfuel rest
    obtain ⟨cs, hcs⟩ := writeFields_eq_cons field fields
    rw [hcs, List.cons_append] at hfields
    rw [write, List.append_assoc, List.cons_append, List.singleton_append, hcs, List.cons_append,
      readValue_brace, hfields]
    rfl

theorem readItems_write : ∀ {items : List Json} {depth : Nat}, ItemsFit depth items → items ≠ [] →
    ∀ {fuel : Nat}, items.length ≤ fuel → ∀ rest : List Char,
    readItems (readValue depth) fuel (writeItems items ++ ']' :: rest) = some (items, rest)
  | [], _, _, hne, _, _, _ => absurd rfl hne
  | [v], depth, h, _, fuel + 1, _, rest => by
    rw [ItemsFit] at h
    exact readItems_last (readValue_write h.1 (endsNumber_cons (by decide))) fuel
  | v :: w :: items, depth, h, _, fuel + 1, hfuel, rest => by
    rw [ItemsFit] at h
    have ih := readItems_write h.2 (List.cons_ne_nil w items) (Nat.le_of_succ_le_succ hfuel) rest
    rw [writeItems_more v (List.cons_ne_nil w items), List.append_assoc, List.cons_append,
      readItems_more (readValue_write h.1 (endsNumber_cons (by decide))), ih]
    rfl

theorem readFields_write : ∀ {fields : List (String × Json)} {depth : Nat}, FieldsFit depth fields →
    fields ≠ [] → ∀ {fuel : Nat}, fields.length ≤ fuel → ∀ rest : List Char,
    readFields (readValue depth) fuel (writeFields fields ++ '\x7d' :: rest) = some (fields, rest)
  | [], _, _, hne, _, _, _ => absurd rfl hne
  | [(name, v)], depth, h, _, fuel + 1, _, rest => by
    rw [FieldsFit] at h
    rw [writeFields, List.append_assoc, List.cons_append]
    exact readFields_last (readValue_write h.1 (endsNumber_cons (by decide))) name fuel
  | (name, v) :: field :: fields, depth, h, _, fuel + 1, hfuel, rest => by
    rw [FieldsFit] at h
    have ih := readFields_write h.2 (List.cons_ne_nil field fields) (Nat.le_of_succ_le_succ hfuel) rest
    rw [writeFields_more name v (List.cons_ne_nil field fields), List.append_assoc, List.append_assoc,
      List.cons_append, List.cons_append,
      readFields_more (readValue_write h.1 (endsNumber_cons (by decide))), ih]
    rfl

end

/-! ### The canonical form -/

/-- A name beyond all others is set at the end. -/
theorem setField_last {sorted : List (String × Json)} {name : String}
    (h : ∀ field ∈ sorted, field.1 < name) (v : Json) : setField name v sorted = sorted ++ [(name, v)] := by
  induction sorted with
  | nil => rfl
  | cons field sorted ih =>
    obtain ⟨k, w⟩ := field
    have hk : k < name := h _ List.mem_cons_self
    rw [setField, if_neg (String.lt_asymm hk), if_neg (by rintro rfl; exact String.lt_irrefl _ hk),
      ih fun field hfield => h field (List.mem_cons_of_mem _ hfield)]
    rfl

mutual

theorem canonical_of_fits : ∀ {v : Json} {depth : Nat}, Fits depth v → canonical v = v
  | null, _, _ | bool _, _, _ | int _, _, _ | float _, _, _ | str _, _, _ => rfl
  | arr items, depth + 1, h => by
    rw [Fits] at h
    rw [canonical, canonicalItems_of_fit h]
  | obj fields, depth + 1, h => by
    rw [Fits] at h
    rw [canonical, canonicalFields_of_fit h.1 h.2 (by simp)]
    rfl

theorem canonicalItems_of_fit : ∀ {items : List Json} {depth : Nat}, ItemsFit depth items →
    canonicalItems items = items
  | [], _, _ => rfl
  | v :: items, depth, h => by
    rw [ItemsFit] at h
    rw [canonicalItems, canonical_of_fits h.1, canonicalItems_of_fit h.2]

theorem canonicalFields_of_fit : ∀ {fields : List (String × Json)} {depth : Nat}, FieldsFit depth fields →
    (fields.map (·.1)).Pairwise (· < ·) → ∀ {sorted : List (String × Json)},
    (∀ earlier ∈ sorted, ∀ field ∈ fields, earlier.1 < field.1) →
    canonicalFields fields sorted = sorted ++ fields
  | [], _, _, _, sorted, _ => (List.append_nil sorted).symm
  | (name, v) :: fields, depth, h, horder, sorted, hsorted => by
    rw [FieldsFit] at h
    rw [List.map_cons, List.pairwise_cons] at horder
    have hlast := setField_last (fun earlier hearlier => hsorted earlier hearlier _ List.mem_cons_self) v
    rw [canonicalFields, canonical_of_fits h.1, hlast, canonicalFields_of_fit h.2 horder.2, List.append_assoc]
    · rfl
    · intro earlier hearlier field hfield
      rw [List.mem_append, List.mem_singleton] at hearlier
      obtain hearlier | rfl := hearlier
      · exact hsorted earlier hearlier field (List.mem_cons_of_mem _ hfield)
      · exact horder.1 field.1 (List.mem_map_of_mem hfield)

end

/-- The text of a value that fits is read as this value. -/
theorem parseRaw?_write {v : Json} (h : Fits 127 v) : parseRaw? v.write = some v := by
  have hread := readValue_write h endsNumber_nil
  rw [List.append_nil] at hread
  rw [parseRaw?, hread]
  rfl

end ClassSort.Json
