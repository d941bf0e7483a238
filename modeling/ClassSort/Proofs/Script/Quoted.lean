import ClassSort.Script.Cursor

/-!
What may stand between the quotes of a string: no unescaped quote and no line break, unless it
continues the string behind a backslash. Read from the left, all that counts of a text in front is
whether its last character still speaks for what comes behind it.
-/

namespace ClassSort.Script

/-- A text that may stand between two of the quotes. -/
inductive IsQuotable (quote : Char) : List Char → Prop where
  | nil : IsQuotable quote []
  | plain {c cs} : c ≠ quote → c ≠ '\\' → c ≠ '\n' → c ≠ '\r' → IsQuotable quote cs →
      IsQuotable quote (c :: cs)
  | escaped {c cs} : IsQuotable quote cs → IsQuotable quote ('\\' :: c :: cs)
  | continued {cs} : IsQuotable quote cs → IsQuotable quote ('\\' :: '\r' :: '\n' :: cs)

inductive Behind where
  | plain
  /-- A backslash that escapes it. -/
  | backslash
  /-- An escaped carriage return, to which a line feed belongs. -/
  | carriage
  deriving DecidableEq, Repr

namespace Behind

def next (quote : Char) : Behind → Char → Option Behind
  | backslash, c => some (if c = '\r' then carriage else plain)
  | carriage, '\n' => some plain
  | _, c => if c = '\\' then some backslash else if c = quote ∨ c = '\n' ∨ c = '\r' then none else some plain

def past (quote : Char) : Behind → List Char → Option Behind
  | behind, [] => some behind
  | behind, c :: cs => (next quote behind c).bind fun behind => past quote behind cs

def pending : Behind → List Char
  | plain => []
  | backslash => ['\\']
  | carriage => ['\\', '\r']

variable {quote : Char}

theorem past_append (behind : Behind) (cs ds : List Char) :
    past quote behind (cs ++ ds) = (past quote behind cs).bind fun behind => past quote behind ds := by
  induction cs generalizing behind with
  | nil => rfl
  | cons c cs ih =>
    rw [List.cons_append, past, past, Option.bind_assoc]
    congr 1
    funext behind
    exact ih behind

@[simp] theorem next_backslash (c : Char) :
    next quote backslash c = some (if c = '\r' then carriage else plain) := rfl

@[simp] theorem next_plain_backslash : next quote plain '\\' = some backslash := rfl

theorem next_plain {c : Char} (h : c ≠ '\\') :
    next quote plain c = if c = quote ∨ c = '\n' ∨ c = '\r' then none else some plain := by
  simp [next, h]

theorem next_carriage {c : Char} (h : c ≠ '\n') : next quote carriage c = next quote plain c := by
  unfold next
  split <;> simp_all

/-- Only a line feed tells whether it stands behind an escaped carriage return. -/
theorem past_carriage {c : Char} {cs : List Char} (h : c ≠ '\n') :
    past quote carriage (c :: cs) = past quote plain (c :: cs) := by
  rw [past, past, next_carriage h]

end Behind

open Behind

variable {quote : Char}

theorem IsQuotable.ne_feed {c : Char} {cs : List Char} (h : IsQuotable quote (c :: cs)) : c ≠ '\n' := by
  cases h with
  | plain _ _ hfeed => exact hfeed
  | escaped => decide
  | continued => decide

theorem IsQuotable.past {cs : List Char} (h : IsQuotable quote cs) :
    ∃ behind, Behind.past quote .plain cs = some behind ∧ behind ≠ .backslash := by
  induction h with
  | nil => exact ⟨.plain, rfl, by decide⟩
  | @plain c cs hquote hslash hfeed hreturn _ ih =>
    rw [Behind.past, next_plain hslash, if_neg (by simp [hquote, hfeed, hreturn])]
    exact ih
  | @escaped c cs hcs ih =>
    rw [Behind.past, next_plain_backslash, Option.bind_some, Behind.past, next_backslash, Option.bind_some]
    split
    · cases cs with
      | nil => exact ⟨.carriage, rfl, by decide⟩
      | cons d ds => rwa [past_carriage hcs.ne_feed]
    · exact ih
  | continued _ ih => exact ih

theorem isQuotable_of_past {cs : List Char} {behind final : Behind}
    (h : Behind.past quote behind cs = some final) (hfinal : final ≠ .backslash) :
    IsQuotable quote (behind.pending ++ cs) := by
  induction cs generalizing behind with
  | nil =>
    cases h
    cases final with
    | plain => exact .nil
    | backslash => exact absurd rfl hfinal
    | carriage => exact .escaped .nil
  | cons c cs ih =>
    rw [Behind.past] at h
    obtain ⟨then', hnext, hthen⟩ := Option.bind_eq_some_iff.mp h
    have hquotable := ih hthen
    -- behind nothing of account the character stands for itself or escapes the next one
    have hplain : next quote plain c = some then' → IsQuotable quote (c :: cs) := by
      intro hnext
      by_cases hslash : c = '\\'
      · subst hslash
        cases hnext
        exact hquotable
      · rw [next_plain hslash] at hnext
        split at hnext
        · cases hnext
        · next hfree =>
          cases hnext
          simp only [not_or] at hfree
          exact .plain hfree.1 hslash hfree.2.1 hfree.2.2 hquotable
    cases behind with
    | plain => exact hplain hnext
    | backslash =>
      cases hnext
      by_cases hreturn : c = '\r'
      · subst hreturn
        exact hquotable
      · rw [if_neg hreturn] at hquotable
        exact .escaped hquotable
    | carriage =>
      by_cases hfeed : c = '\n'
      · subst hfeed
        cases hnext
        exact .continued hquotable
      · rw [next_carriage hfeed] at hnext
        exact .escaped (hplain hnext)

/-- A text is quotable when it can be read to its end and leaves nothing to escape. -/
theorem isQuotable_iff_past {cs : List Char} :
    IsQuotable quote cs ↔ ∃ behind, Behind.past quote .plain cs = some behind ∧ behind ≠ .backslash := by
  constructor
  · exact IsQuotable.past
  · rintro ⟨behind, hpast, hbehind⟩
    exact isQuotable_of_past hpast hbehind

instance (cs : List Char) : Decidable (IsQuotable quote cs) :=
  decidable_of_iff ((Behind.past quote .plain cs).any (· ≠ .backslash) = true) (by
    simp [isQuotable_iff_past, Option.any_eq_true])

/-- The quote behind a quotable text ends it. -/
theorem IsQuotable.quotedLength {cs : List Char} (h : IsQuotable quote cs) (hslash : quote ≠ '\\')
    (hfeed : quote ≠ '\n') (rest : List Char) :
    Script.quotedLength quote (cs ++ quote :: rest) = some (cs.length + 1) := by
  induction h with
  | nil => simp [Script.quotedLength, hslash]
  | @plain c cs hquote hslash' hfeed' _ _ ih =>
    rw [List.cons_append, Script.quotedLength.eq_3, ih]
    · simp [hquote, hslash', hfeed']
    · rintro _ rfl
      exact absurd rfl hslash'
    · rintro _ _ rfl
      exact absurd rfl hslash'
  | @escaped c cs hcs ih =>
    rw [List.cons_append, List.cons_append, Script.quotedLength.eq_2, ih]
    · rfl
    · intro tail _ hbehind
      cases cs with
      | nil => exact hfeed (List.cons.inj hbehind).1
      | cons d ds => exact hcs.ne_feed (List.cons.inj hbehind).1
  | continued _ ih =>
    rw [List.cons_append, List.cons_append, List.cons_append, Script.quotedLength, ih]
    rfl

end ClassSort.Script
