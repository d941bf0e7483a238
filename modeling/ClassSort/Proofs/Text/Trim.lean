import ClassSort.Text.Blank
import Mathlib.Data.List.DropRight

/-!
Trimming takes white space off both ends of a text, all that is there and nothing else.
-/

namespace ClassSort

theorem isBlank_of_isAsciiBlank {c : Char} (h : isAsciiBlank c = true) : isBlank c = true := by
  simp only [isAsciiBlank, Bool.or_eq_true, beq_iff_eq] at h
  rcases h with (((rfl | rfl) | rfl) | rfl) | rfl <;> rfl

theorem dropEnd_concat (p : Char → Bool) (cs : List Char) (c : Char) :
    dropEnd p (cs ++ [c]) = if p c then dropEnd p cs else cs ++ [c] := by
  induction cs with
  | nil => rfl
  | cons d cs ih =>
    rw [List.cons_append, dropEnd, ih]
    by_cases hc : p c = true
    · rw [if_pos hc, if_pos hc, dropEnd]
    · rw [if_neg hc, if_neg hc]
      split
      · next hnil => simp at hnil
      · next hcons => rw [hcons]

theorem dropEnd_eq_rdropWhile (p : Char → Bool) (cs : List Char) : dropEnd p cs = cs.rdropWhile p := by
  induction cs using List.reverseRecOn with
  | nil => rfl
  | append_singleton cs c ih => rw [dropEnd_concat, List.rdropWhile_concat, ih]

/-- What is to be dropped at the end goes, whatever stands in front of it. -/
theorem dropEnd_append {p : Char → Bool} {ds : List Char} (h : ∀ c ∈ ds, p c = true) (cs : List Char) :
    dropEnd p (cs ++ ds) = dropEnd p cs := by
  rw [dropEnd_eq_rdropWhile, dropEnd_eq_rdropWhile, List.rdropWhile, List.reverse_append,
    List.dropWhile_append_of_pos fun c hc => h c (List.mem_reverse.mp hc), List.rdropWhile]

/-- White space on both sides of what trimming leaves. -/
theorem exists_trimmed (cs : List Char) : ∃ front back, cs = front ++ trimChars cs ++ back ∧
    (∀ c ∈ front, isBlank c = true) ∧ ∀ c ∈ back, isBlank c = true := by
  refine ⟨cs.takeWhile isBlank, (cs.dropWhile isBlank).rtakeWhile isBlank, ?_, ?_, ?_⟩
  · rw [trimChars, dropEnd_eq_rdropWhile, List.append_assoc, List.rdropWhile_append_rtakeWhile,
      List.takeWhile_append_dropWhile]
  · exact fun c => List.mem_takeWhile_imp
  · exact fun c => List.mem_rtakeWhile_imp

/-- A text that neither begins nor ends with white space. -/
structure IsSolid (cs : List Char) : Prop where
  ne : cs ≠ []
  head : ∀ c ∈ cs.head?, isBlank c = false
  last : ∀ c ∈ cs.getLast?, isBlank c = false

variable {cs ds : List Char}

theorem isSolid_trimChars (h : trimChars cs ≠ []) : IsSolid (trimChars cs) := by
  have hprefix : trimChars cs <+: cs.dropWhile isBlank := by
    rw [trimChars, dropEnd_eq_rdropWhile]
    exact List.rdropWhile_prefix _ _
  refine ⟨h, ?_, ?_⟩
  · intro c hc
    obtain ⟨back, hback⟩ := hprefix
    have hhead : (cs.dropWhile isBlank).head? = some c := by
      rw [← hback, List.head?_append, hc]
      rfl
    have hne : cs.dropWhile isBlank ≠ [] := by
      intro hnil
      rw [hnil] at hhead
      cases hhead
    have hfirst := List.head_dropWhile_not isBlank hne
    rw [List.head?_eq_some_head hne, Option.some.injEq] at hhead
    rw [hhead] at hfirst
    simpa using hfirst
  · intro c hc
    rw [trimChars, dropEnd_eq_rdropWhile] at h hc
    have hlast := List.rdropWhile_last_not isBlank _ h
    rw [List.getLast?_eq_getLast_of_ne_nil h] at hc
    cases hc
    simpa using hlast

/-- White space around a solid text is trimmed. -/
theorem trimChars_around {front back : List Char} (hfront : ∀ c ∈ front, isBlank c = true)
    (h : IsSolid cs) (hback : ∀ c ∈ back, isBlank c = true) : trimChars (front ++ cs ++ back) = cs := by
  have hkept : (cs ++ back).dropWhile isBlank = cs ++ back := by
    cases cs with
    | nil => exact absurd rfl h.ne
    | cons c cs => rw [List.cons_append, List.dropWhile_cons_of_neg (by simp [h.head c rfl])]
  rw [trimChars, List.append_assoc, List.dropWhile_append_of_pos hfront, hkept, dropEnd_append hback,
    dropEnd_eq_rdropWhile]
  refine List.rdropWhile_eq_self_iff.mpr fun hne => ?_
  rw [h.last _ (List.getLast?_eq_getLast_of_ne_nil hne)]
  decide

/-- Nothing is trimmed from a solid text. -/
theorem IsSolid.trimChars (h : IsSolid cs) : trimChars cs = cs := by
  have haround := trimChars_around (List.forall_mem_nil _) h (List.forall_mem_nil _)
  rwa [List.nil_append, List.append_nil] at haround

theorem IsSolid.append_of_forall (h : IsSolid cs) (hback : ∀ c ∈ ds, isBlank c = false) :
    IsSolid (cs ++ ds) := by
  refine ⟨by simp [h.ne], ?_, ?_⟩
  · intro c hc
    rw [List.head?_append_of_ne_nil _ h.ne] at hc
    exact h.head c hc
  · intro c hc
    by_cases hds : ds = []
    · rw [hds, List.append_nil] at hc
      exact h.last c hc
    · rw [List.getLast?_append_of_ne_nil _ hds] at hc
      exact hback c (List.mem_of_getLast? hc)

theorem IsSolid.append (h : IsSolid cs) (h' : IsSolid ds) (mid : List Char) : IsSolid (cs ++ mid ++ ds) := by
  refine ⟨by simp [h.ne], ?_, ?_⟩
  · intro c hc
    rw [List.append_assoc, List.head?_append_of_ne_nil _ h.ne] at hc
    exact h.head c hc
  · intro c hc
    rw [List.getLast?_append_of_ne_nil _ h'.ne] at hc
    exact h'.last c hc

end ClassSort
