import ClassSort.Edit
import ClassSort.Proofs.Order.StableSort
import ClassSort.Proofs.Text.Cuts
import Mathlib.Algebra.GroupWithZero.Nat
import Mathlib.Data.List.Sort

/-!
What applying fixes comes to. A range that cannot be cut out of the text is refused, and of several
the first by position. Else the fixes are taken by range: one that begins inside the last range that was
taken is left out, every other one is put in, and all that stands between them stays.
-/

namespace ClassSort

theorem Span.le_isWeakOrder : IsWeakOrder Span.le where
  total a b := by
    simp only [Span.le, Bool.or_eq_true, Bool.and_eq_true, beq_iff_eq, decide_eq_true_eq]
    omega
  trans a b c := by
    simp only [Span.le, Bool.or_eq_true, Bool.and_eq_true, beq_iff_eq, decide_eq_true_eq]
    omega

theorem Span.le_antisymm {s t : Span} (h : s.le t = true) (h' : t.le s = true) : s = t := by
  obtain ⟨start, stop⟩ := s
  obtain ⟨start', stop'⟩ := t
  simp only [Span.le, Bool.or_eq_true, Bool.and_eq_true, beq_iff_eq, decide_eq_true_eq,
    Span.mk.injEq] at *
  omega

/-- What stands before `s` begins no later. -/
theorem Span.start_le_of_le {s t : Span} (h : s.le t = true) : s.start ≤ t.start := by
  simp only [Span.le, Bool.or_eq_true, Bool.and_eq_true, beq_iff_eq, decide_eq_true_eq] at h
  omega

theorem sortViolations_ordered (vs : List Violation) :
    (sortViolations vs).Pairwise fun v w => v.range.le w.range = true :=
  sortBy_ordered (Span.le_isWeakOrder.comap Violation.range) vs

theorem mem_sortViolations {vs : List Violation} {v : Violation} : v ∈ sortViolations vs ↔ v ∈ vs :=
  (sortBy_perm vs).mem_iff

variable {source : String} {v : Violation} {vs : List Violation} {pos : Nat}

namespace Fixed

/-! One fix. -/

theorem splice_refused (h : ¬ v.range.Cuts source.toList) (rest : List Char) :
    splice source.toList (v :: vs) pos rest = .error ⟨v.range, byteLength source.toList⟩ := by
  have hfits : v.range.fits source.toList = false := by simpa [← Span.fits_iff_cuts] using h
  rw [splice, hfits]
  rfl

theorem splice_skipped (h : v.range.Cuts source.toList) (hpos : v.range.start < pos) (rest : List Char) :
    splice source.toList (v :: vs) pos rest =
      (splice source.toList vs pos rest).map fun (out, applied, skipped) => (out, applied, skipped + 1) := by
  rw [splice, if_neg (by simpa [Span.fits_iff_cuts] using h), if_pos hpos]
  cases splice source.toList vs pos rest <;> rfl

/-- A range that begins no earlier than what is left of the text is a piece of it. -/
theorem splice_applied (vs : List Violation) {done rest : List Char} (hsource : source.toList = done ++ rest)
    (h : v.range.Cuts source.toList) (hpos : byteLength done ≤ v.range.start) :
    ∃ gap inside text, rest = gap ++ inside ++ text ∧ byteLength done + byteLength gap = v.range.start ∧
      v.range.start + byteLength inside = v.range.stop ∧
      splice source.toList (v :: vs) (byteLength done) rest =
        (splice source.toList vs v.range.stop text).map fun (out, applied, skipped) =>
          (gap ++ v.replacement.toList ++ out, applied + 1, skipped) := by
  obtain ⟨before, inside, text, hsplit, hstart, hstop⟩ := h.start.between h.stop h.forward
  obtain ⟨gap, rfl, rfl⟩ := append_cut
    (hsource.symm.trans (hsplit.trans (List.append_assoc ..))) (by omega)
  rw [byteLength_append] at hstart
  have hgap : v.range.start - byteLength done = byteLength gap := by omega
  have hsize : v.range.size = byteLength inside := by
    unfold Span.size
    omega
  refine ⟨gap, inside, text, (List.append_assoc ..).symm, hstart, hstop, ?_⟩
  rw [splice, if_neg (by simpa [Span.fits_iff_cuts] using h), if_neg (by omega), hgap]
  simp only [splitAtByte_append, hsize]
  cases splice source.toList vs v.range.stop text <;> rfl

end Fixed

/-! All fixes. -/

inductive Taken : Nat → List Violation → List Violation → List Violation → Prop
  | nil {pos : Nat} : Taken pos [] [] []
  | applied {pos : Nat} {v : Violation} {vs applied skipped : List Violation} (behind : pos ≤ v.range.start)
      (rest : Taken v.range.stop vs applied skipped) : Taken pos (v :: vs) (v :: applied) skipped
  | skipped {pos : Nat} {v : Violation} {vs applied skipped : List Violation} (inside : v.range.start < pos)
      (rest : Taken pos vs applied skipped) : Taken pos (v :: vs) applied (v :: skipped)

inductive Spliced : Nat → List Violation → List Char → List Char → Prop
  | rest {pos : Nat} (text : List Char) : Spliced pos [] text text
  | fix {pos : Nat} {v : Violation} {vs : List Violation} {gap inside text output : List Char}
      (start : pos + byteLength gap = v.range.start)
      (stop : v.range.start + byteLength inside = v.range.stop)
      (rest : Spliced v.range.stop vs text output) :
      Spliced pos (v :: vs) (gap ++ inside ++ text) (gap ++ v.replacement.toList ++ output)

variable {applied skipped : List Violation}

theorem Taken.perm (h : Taken pos vs applied skipped) : (applied ++ skipped).Perm vs := by
  induction h with
  | nil => exact .nil
  | applied _ _ ih => exact ih.cons _
  | skipped _ _ ih => exact List.perm_middle.trans (ih.cons _)

/-- What is left out begins inside a range that was put in, or in front of all of them. -/
theorem Taken.overlapped (h : Taken pos vs applied skipped)
    (hordered : vs.Pairwise fun v w => v.range.le w.range = true) : ∀ v ∈ skipped, v.range.start < pos ∨
      ∃ w ∈ applied, w.range.start ≤ v.range.start ∧ v.range.start < w.range.stop := by
  induction h with
  | nil => simp
  | @applied pos v vs applied skipped hbehind hrest ih =>
    obtain ⟨hv, hvs⟩ := List.pairwise_cons.mp hordered
    intro w hw
    right
    have hle := Span.start_le_of_le (hv w (hrest.perm.subset (List.mem_append_right _ hw)))
    rcases ih hvs w hw with hinside | ⟨u, hu, hoverlap⟩
    · exact ⟨v, List.mem_cons_self, hle, hinside⟩
    · exact ⟨u, List.mem_cons_of_mem _ hu, hoverlap⟩
  | @skipped pos v vs applied skipped hinside _ ih =>
    obtain ⟨-, hvs⟩ := List.pairwise_cons.mp hordered
    intro w hw
    rcases List.mem_cons.mp hw with rfl | hw
    · exact .inl hinside
    · exact ih hvs w hw

theorem Spliced.behind {text output : List Char} (h : Spliced pos vs text output) :
    ∀ v ∈ vs, pos ≤ v.range.start := by
  induction h with
  | rest => simp
  | fix hstart hstop _ ih =>
    refine List.forall_mem_cons.mpr ⟨by omega, fun w hw => ?_⟩
    have hw := ih w hw
    omega

theorem Spliced.apart {text output : List Char} (h : Spliced pos vs text output) :
    vs.Pairwise fun v w => v.range.Before w.range := by
  induction h with
  | rest => exact .nil
  | fix _ _ hrest ih => exact List.pairwise_cons.mpr ⟨hrest.behind, ih⟩

/-- The output is longer by the new texts and shorter by the ranges. -/
theorem Spliced.length_eq {text output : List Char} (h : Spliced pos vs text output) :
    byteLength output + (vs.map (·.range.size)).sum =
      byteLength text + (vs.map (byteLength ·.replacement.toList)).sum := by
  induction h with
  | rest => rfl
  | @fix _ v _ _ inside _ _ _ hstop _ ih =>
    have hsize : v.range.size = byteLength inside := by
      unfold Span.size
      omega
    simp only [byteLength_append, List.map_cons, List.sum_cons, hsize]
    omega

/-- Where every range can be cut out the fixes that are taken are put in. -/
theorem Fixed.splice_taken {done rest : List Char} (hsource : source.toList = done ++ rest)
    (hcuts : ∀ v ∈ vs, v.range.Cuts source.toList) : ∃ output applied skipped,
      splice source.toList vs (byteLength done) rest = .ok (output, applied.length, skipped.length) ∧
      Taken (byteLength done) vs applied skipped ∧ Spliced (byteLength done) applied rest output := by
  induction vs generalizing done rest with
  | nil => exact ⟨rest, [], [], rfl, .nil, .rest rest⟩
  | cons v vs ih =>
    obtain ⟨hv, hvs⟩ := List.forall_mem_cons.mp hcuts
    by_cases hinside : v.range.start < byteLength done
    · obtain ⟨output, applied, skipped, hrest, htaken, hspliced⟩ := ih hsource hvs
      refine ⟨output, applied, v :: skipped, ?_, .skipped hinside htaken, hspliced⟩
      rw [splice_skipped hv hinside, hrest]
      rfl
    · have hbehind := Nat.not_lt.mp hinside
      obtain ⟨gap, inside, text, rfl, hstart, hstop, hsplice⟩ := splice_applied vs hsource hv hbehind
      have hdone : byteLength (done ++ (gap ++ inside)) = v.range.stop := by
        rw [byteLength_append, byteLength_append]
        omega
      obtain ⟨output, applied, skipped, hrest, htaken, hspliced⟩ :=
        ih (hsource.trans (List.append_assoc done _ text).symm) hvs
      rw [hdone] at hrest htaken hspliced
      refine ⟨_, v :: applied, skipped, ?_, .applied hbehind htaken, .fix hstart hstop hspliced⟩
      rw [hsplice, hrest]
      rfl

/-- The first range that cannot be cut out is refused. -/
theorem Fixed.splice_error {front back : List Violation} {done rest : List Char}
    (hsource : source.toList = done ++ rest) (hfront : ∀ w ∈ front, w.range.Cuts source.toList)
    (hv : ¬ v.range.Cuts source.toList) :
    splice source.toList (front ++ v :: back) (byteLength done) rest =
      .error ⟨v.range, byteLength source.toList⟩ := by
  induction front generalizing done rest with
  | nil => exact splice_refused hv rest
  | cons w front ih =>
    obtain ⟨hw, hfront⟩ := List.forall_mem_cons.mp hfront
    rw [List.cons_append]
    by_cases hinside : w.range.start < byteLength done
    · rw [splice_skipped hw hinside, ih hsource hfront]
      rfl
    · obtain ⟨gap, inside, text, rfl, hstart, hstop, hsplice⟩ :=
        splice_applied (front ++ v :: back) hsource hw (Nat.not_lt.mp hinside)
      have hdone : byteLength (done ++ (gap ++ inside)) = w.range.stop := by
        rw [byteLength_append, byteLength_append]
        omega
      have hrest := ih (hsource.trans (List.append_assoc done _ text).symm) hfront
      rw [hdone] at hrest
      rw [hsplice, hrest]
      rfl

theorem applyViolations_single {source : String} {v : Violation} {front inside back : List Char}
    (hsource : source.toList = front ++ inside ++ back) (hstart : v.range.start = byteLength front)
    (hstop : v.range.stop = byteLength front + byteLength inside) :
    applyViolations source [v] = .ok ⟨String.ofList (front ++ v.replacement.toList ++ back), 1, 0⟩ := by
  have hfits : v.range.fits source.toList = true := by
    rw [Span.fits_iff_cuts]
    exact Span.cuts_of_slice (sliceChars?_eq_some.mpr ⟨front, back, hsource, hstart.symm, by omega⟩)
  have hsize : v.range.size = byteLength inside := by
    rw [Span.size]
    omega
  have hfront : splitAtByte source.toList (v.range.start - 0) = some (front, inside ++ back) := by
    rw [hsource, hstart, Nat.sub_zero, List.append_assoc, splitAtByte_append]
  have hinside : splitAtByte (inside ++ back) v.range.size = some (inside, back) := by
    rw [hsize, splitAtByte_append]
  have hsorted : sortViolations [v] = [v] := rfl
  simp only [applyViolations, hsorted, Fixed.splice, hfits, hfront, hinside]
  rfl

/-- What applying fixes gives, where `applied` were put in and `skipped` were left out. -/
structure Fixed.Splices (source : String) (vs applied skipped : List Violation) (fixed : Fixed) : Prop where
  taken : Taken 0 (sortViolations vs) applied skipped
  all : (applied ++ skipped).Perm vs
  appliedCount : fixed.applied = applied.length
  skippedCount : fixed.skipped = skipped.length
  total : fixed.applied + fixed.skipped = vs.length
  apart : applied.Pairwise fun v w => v.range.Before w.range
  overlapped : ∀ v ∈ skipped, ∃ w ∈ applied, w.range.start ≤ v.range.start ∧ v.range.start < w.range.stop
  output : Spliced 0 applied source.toList fixed.output.toList
  length : byteLength fixed.output.toList + (applied.map (·.range.size)).sum =
    byteLength source.toList + (applied.map (byteLength ·.replacement.toList)).sum

theorem applyViolations_ok (h : ∀ v ∈ vs, v.range.Cuts source.toList) :
    ∃ fixed applied skipped, applyViolations source vs = .ok fixed ∧
      Fixed.Splices source vs applied skipped fixed := by
  have hsorted : ∀ v ∈ sortViolations vs, v.range.Cuts source.toList :=
    fun v hv => h v (mem_sortViolations.mp hv)
  obtain ⟨output, applied, skipped, hsplice, htaken, hspliced⟩ :=
    Fixed.splice_taken (List.nil_append source.toList).symm hsorted
  have hall := htaken.perm.trans (sortBy_perm vs)
  refine ⟨⟨String.ofList output, applied.length, skipped.length⟩, applied, skipped, ?_, ?_⟩
  · rw [applyViolations, show (0 : Nat) = byteLength [] from rfl, hsplice]
    rfl
  · have hlisted : Spliced 0 applied source.toList (String.ofList output).toList := by
      rw [String.toList_ofList]
      exact hspliced
    exact {
      taken := htaken
      all := hall
      appliedCount := rfl
      skippedCount := rfl
      total := by rw [← hall.length_eq, List.length_append]
      apart := hspliced.apart
      overlapped := fun v hv =>
        (htaken.overlapped (sortViolations_ordered vs) v hv).resolve_left (Nat.not_lt_zero _)
      output := hlisted
      length := hlisted.length_eq }

theorem applyViolations_refused (h : ∃ v ∈ vs, ¬ v.range.Cuts source.toList) :
    ∃ v ∈ vs, applyViolations source vs = .error ⟨v.range, byteLength source.toList⟩ ∧
      ¬ v.range.Cuts source.toList ∧
      ∀ w ∈ vs, ¬ w.range.Cuts source.toList → v.range.le w.range = true := by
  have hsorted : (sortViolations vs).find? (fun v => !v.range.fits source.toList) ≠ none := by
    obtain ⟨v, hv, hcuts⟩ := h
    intro hnone
    have hfits := List.find?_eq_none.mp hnone v (mem_sortViolations.mpr hv)
    exact hcuts (Span.fits_iff_cuts.mp (by simpa using hfits))
  obtain ⟨v, hfirst⟩ := Option.ne_none_iff_exists'.mp hsorted
  obtain ⟨hv, front, back, hsplit, hfront⟩ := List.find?_eq_some_iff_append.mp hfirst
  simp only [Bool.not_eq_true', Bool.not_not] at hv hfront
  have hcuts : ¬ v.range.Cuts source.toList := by
    rw [← Span.fits_iff_cuts, hv]
    exact Bool.false_ne_true
  have hfront : ∀ w ∈ front, w.range.Cuts source.toList :=
    fun w hw => Span.fits_iff_cuts.mp (hfront w hw)
  have hmem : v ∈ sortViolations vs := by simp [hsplit]
  refine ⟨v, mem_sortViolations.mp hmem, ?_, hcuts, ?_⟩
  · rw [applyViolations, hsplit, show (0 : Nat) = byteLength [] from rfl,
      Fixed.splice_error (List.nil_append source.toList).symm hfront hcuts]
    rfl
  · intro w hw hrefused
    have hordered := sortViolations_ordered vs
    have hw := mem_sortViolations.mpr hw
    rw [hsplit] at hw hordered
    rcases List.mem_append.mp hw with hw | hw
    · exact absurd (hfront w hw) hrefused
    · rcases List.mem_cons.mp hw with rfl | hw
      · exact or_self_iff.mp (Span.le_isWeakOrder.total w.range w.range)
      · exact (List.pairwise_cons.mp (List.pairwise_append.mp hordered).2.1).1 w hw

/-- Without two fixes for one range there is one way to list them. -/
theorem sortViolations_eq_of_perm {ws : List Violation} (h : ws.Perm vs)
    (hdistinct : (vs.map (·.range)).Nodup) : sortViolations ws = sortViolations vs := by
  have hperm : (sortViolations ws).Perm (sortViolations vs) :=
    (sortBy_perm ws).trans (h.trans (sortBy_perm vs).symm)
  refine List.Perm.eq_of_pairwise ?_ (sortViolations_ordered ws) (sortViolations_ordered vs) hperm
  intro v w hv hw hle hge
  exact List.inj_on_of_nodup_map hdistinct (h.subset (mem_sortViolations.mp hv)) (mem_sortViolations.mp hw)
    (Span.le_antisymm hle hge)

/-- Applying fixes fails exactly if a range cannot be cut out, and names the first of these. Else every
fix is put in or begins inside one that is; what is put in does not overlap, and everything between
stays. In what order the fixes are given matters only where two have the same range. -/
theorem applyViolations_splices (source : String) (vs : List Violation) :
    ((∃ e, applyViolations source vs = .error e) ↔ ∃ v ∈ vs, ¬ v.range.Cuts source.toList) ∧
    (∀ e, applyViolations source vs = .error e → e.length = byteLength source.toList ∧
      ∃ v ∈ vs, e.range = v.range ∧ ¬ v.range.Cuts source.toList ∧
        ∀ w ∈ vs, ¬ w.range.Cuts source.toList → v.range.le w.range = true) ∧
    (∀ fixed, applyViolations source vs = .ok fixed →
      ∃ applied skipped, Fixed.Splices source vs applied skipped fixed) ∧
    ∀ ws : List Violation, ws.Perm vs → (vs.map (·.range)).Nodup →
      applyViolations source ws = applyViolations source vs := by
  have horder (ws : List Violation) (hperm : ws.Perm vs) (hdistinct : (vs.map (·.range)).Nodup) :
      applyViolations source ws = applyViolations source vs := by
    rw [applyViolations, sortViolations_eq_of_perm hperm hdistinct]
    rfl
  by_cases h : ∃ v ∈ vs, ¬ v.range.Cuts source.toList
  · obtain ⟨v, hv, herror, hrefused, hfirst⟩ := applyViolations_refused h
    refine ⟨iff_of_true ⟨_, herror⟩ h, ?_, ?_, horder⟩
    · rw [herror]
      rintro e ⟨⟩
      exact ⟨rfl, v, hv, rfl, hrefused, hfirst⟩
    · rw [herror]
      rintro fixed ⟨⟩
  · have hcuts : ∀ v ∈ vs, v.range.Cuts source.toList := by simpa using h
    obtain ⟨fixed, applied, skipped, hok, hsplices⟩ := applyViolations_ok hcuts
    refine ⟨iff_of_false ?_ h, ?_, ?_, horder⟩
    · rw [hok]
      rintro ⟨e, ⟨⟩⟩
    · rw [hok]
      rintro e ⟨⟩
    · rw [hok]
      rintro _ ⟨⟩
      exact ⟨applied, skipped, hsplices⟩

def edit (start stop : Nat) (text : String) : Violation := ⟨"", ⟨start, stop⟩, text, ""⟩

def touchingEdits : List Violation := [edit 4 6 "x", edit 3 5 "yy", edit 3 3 "+", edit 1 3 "e"]

def strayEdits : List Violation := [edit 7 9 "", edit 3 2 "", edit 1 2 "", edit 0 1 ""]

theorem applyViolations_splices_touching :
    applyViolations "aébcdef" touchingEdits = .ok ⟨"ae+yydef", 3, 1⟩ ∧
      (∃ applied skipped, Fixed.Splices "aébcdef" touchingEdits applied skipped ⟨"ae+yydef", 3, 1⟩) ∧
      applyViolations "aébcdef" touchingEdits.reverse = .ok ⟨"ae+yydef", 3, 1⟩ ∧
      applyViolations "aébcdef" strayEdits = .error ⟨⟨1, 2⟩, 8⟩ ∧
      ∃ v ∈ strayEdits, ¬ v.range.Cuts "aébcdef".toList := by
  have hfixed : applyViolations "aébcdef" touchingEdits = .ok ⟨"ae+yydef", 3, 1⟩ := by decide +kernel
  have hstray : applyViolations "aébcdef" strayEdits = .error ⟨⟨1, 2⟩, 8⟩ := by decide +kernel
  obtain ⟨-, -, hsplices, horder⟩ := applyViolations_splices "aébcdef" touchingEdits
  obtain ⟨hfails, -⟩ := applyViolations_splices "aébcdef" strayEdits
  have hreverse := horder touchingEdits.reverse (List.reverse_perm _) (by decide)
  exact ⟨hfixed, hsplices _ hfixed, hreverse.trans hfixed, hstray, hfails.mp ⟨_, hstray⟩⟩

end ClassSort
