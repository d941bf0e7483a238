import ClassSort.Proofs.Markup.Crossing

/-!
An expression in braces that is closed is closed by its own text: wherever the text stands, and whatever
stands behind it, a scan for the closing brace ends with it.
-/

namespace ClassSort.Markup

/-- Where a scan for the closing brace ends does not depend on where it began in the document. -/
theorem closeFrom_rest (inside : Inside) (depth : Nat) (cs : List Char) (m n : Nat) :
    (closeFrom inside depth cs m).rest = (closeFrom inside depth cs n).rest := by
  fun_induction closeFrom inside depth cs m generalizing n with
  | case1 inside => cases inside <;> rfl
  | case10 depth cs m hdepth => rw [closeFrom, if_pos hdepth]
  | case11 depth cs m hdepth ih =>
    rw [closeFrom, if_neg hdepth]
    exact ih _
  | case2 _ _ _ _ _ ih | case4 _ _ _ _ ih | case5 _ _ _ ih | case7 _ _ _ ih | case8 _ _ _ ih
  | case9 _ _ _ ih =>
    rw [closeFrom]
    exact ih _
  | case3 _ _ _ _ _ hplain ih | case6 _ _ _ _ hplain ih =>
    rw [closeFrom]
    · exact ih _
    · exact hplain
  | case12 _ _ _ _ hline hblock hopen hclose _ ih =>
    rw [closeFrom]
    · exact ih _
    · exact hline
    · exact hblock
    · exact hopen
    · exact hclose

def Closing (inside : Inside) (depth : Nat) (text : List Char) : Prop :=
  ∀ rest n, closeFrom inside depth (text ++ rest) n = ⟨rest, n + byteLength text⟩

variable {inside : Inside} {depth : Nat} {text cs : List Char} {c : Char}

theorem Closing.ne_nil (h : Closing inside depth text) : text ≠ [] := by
  rintro rfl
  have hstays := congrArg Point.rest (h ['\x7b'] 0)
  cases inside <;> simp [closeFrom] at hstays

/-- One more character in front. -/
theorem Closing.cons {inside' : Inside} {depth' : Nat} (h : Closing inside' depth' text)
    (hstep : ∀ rest n, closeFrom inside depth (c :: (text ++ rest)) n =
      closeFrom inside' depth' (text ++ rest) (n + c.utf8Size)) : Closing inside depth (c :: text) := by
  intro rest n
  rw [List.cons_append, hstep, h, byteLength, Nat.add_assoc]

theorem Closing.cons_cons {inside' : Inside} {depth' : Nat} {d : Char} (h : Closing inside' depth' text)
    (hstep : ∀ rest n, closeFrom inside depth (c :: d :: (text ++ rest)) n =
      closeFrom inside' depth' (text ++ rest) (n + (c.utf8Size + d.utf8Size))) :
    Closing inside depth (c :: d :: text) := by
  intro rest n
  rw [List.cons_append, List.cons_append, hstep, h, byteLength, byteLength]
  simp only [Nat.add_assoc]

/-- What follows the first character of a text does not depend on what stands behind the text. -/
theorem not_followed {behind rest : List Char} {d x : Char} (hne : text ≠ [])
    (h : ∀ cs, c = d → text ++ behind = x :: cs → False) : ∀ cs, c = d → text ++ rest = x :: cs → False := by
  obtain ⟨y, ys, rfl⟩ := List.exists_cons_of_ne_nil hne
  intro cs hc hx
  obtain ⟨rfl, -⟩ := List.cons.inj hx
  exact h (ys ++ behind) hc rfl

/-- An expression that is closed within a document is closed by its text. -/
theorem exists_closing {n : Nat} (h : (closeFrom inside depth cs n).rest ≠ []) :
    ∃ text, cs = text ++ (closeFrom inside depth cs n).rest ∧ Closing inside depth text := by
  fun_induction closeFrom inside depth cs n with
  | case1 => exact absurd rfl h
  | case10 depth cs n hdepth =>
    refine ⟨['\x7d'], rfl, fun rest m => ?_⟩
    rw [List.singleton_append, closeFrom, if_pos hdepth]
    rfl
  | case11 depth cs n hdepth ih =>
    obtain ⟨text, hcs, hclosing⟩ := ih h
    refine ⟨'\x7d' :: text, congrArg _ hcs, hclosing.cons fun rest m => ?_⟩
    rw [closeFrom, if_neg hdepth]
    rfl
  | case2 quote depth c cs n ih =>
    obtain ⟨text, hcs, hclosing⟩ := ih h
    refine ⟨'\\' :: c :: text, congrArg ('\\' :: c :: ·) hcs, hclosing.cons_cons fun rest m => ?_⟩
    rw [closeFrom, Nat.add_assoc]
    rfl
  | case3 quote depth c cs n hplain ih =>
    obtain ⟨text, hcs, hclosing⟩ := ih h
    refine ⟨c :: text, congrArg _ hcs, hclosing.cons fun rest m => ?_⟩
    rw [closeFrom]
    intro d ds hc _
    obtain ⟨e, es, hcs'⟩ := List.exists_cons_of_ne_nil (l := cs) (by rw [hcs]; simp [hclosing.ne_nil])
    exact hplain e es hc hcs'
  | case4 depth c cs n ih =>
    obtain ⟨text, hcs, hclosing⟩ := ih h
    refine ⟨c :: text, congrArg _ hcs, hclosing.cons fun rest m => ?_⟩
    rw [closeFrom]
  | case5 depth cs n ih =>
    obtain ⟨text, hcs, hclosing⟩ := ih h
    refine ⟨'*' :: '/' :: text, congrArg ('*' :: '/' :: ·) hcs, hclosing.cons_cons fun rest m => ?_⟩
    rw [closeFrom]
    rfl
  | case6 depth c cs n hplain ih =>
    obtain ⟨text, hcs, hclosing⟩ := ih h
    refine ⟨c :: text, congrArg _ hcs, hclosing.cons fun rest m => ?_⟩
    rw [closeFrom]
    rw [hcs] at hplain
    exact not_followed hclosing.ne_nil hplain
  | case7 depth cs n ih =>
    obtain ⟨text, hcs, hclosing⟩ := ih h
    refine ⟨'/' :: '/' :: text, congrArg ('/' :: '/' :: ·) hcs, hclosing.cons_cons fun rest m => ?_⟩
    rw [closeFrom]
    rfl
  | case8 depth cs n ih =>
    obtain ⟨text, hcs, hclosing⟩ := ih h
    refine ⟨'/' :: '*' :: text, congrArg ('/' :: '*' :: ·) hcs, hclosing.cons_cons fun rest m => ?_⟩
    rw [closeFrom]
    rfl
  | case9 depth cs n ih =>
    obtain ⟨text, hcs, hclosing⟩ := ih h
    refine ⟨'\x7b' :: text, congrArg _ hcs, hclosing.cons fun rest m => ?_⟩
    rw [closeFrom]
    rfl
  | case12 depth c cs n hline hblock hopen hclose inside ih =>
    obtain ⟨text, hcs, hclosing⟩ := ih h
    refine ⟨c :: text, congrArg _ hcs, hclosing.cons fun rest m => ?_⟩
    rw [hcs] at hline hblock
    rw [closeFrom]
    · exact not_followed hclosing.ne_nil hline
    · exact not_followed hclosing.ne_nil hblock
    · exact hopen
    · exact hclose

/-- An expression with its braces, the last of which closes the first one. -/
structure IsBraced (text : List Char) : Prop where
  opened : text.head? = some '\x7b'
  closing : Closing .code 0 text

/-- Past an expression that is closed. -/
theorem Point.pastBraces_braced {p : Point} (hopen : p.rest.head? = some '\x7b')
    (h : p.pastBraces.rest ≠ []) : ∃ text, IsBraced text ∧ Crosses p p.pastBraces text := by
  obtain ⟨text, hsplit, hclosing⟩ := exists_closing h
  have hend := hclosing p.pastBraces.rest p.pos
  have hpast : p.pastBraces = ⟨p.pastBraces.rest, p.pos + byteLength text⟩ := by
    rw [← hend]
    exact congrArg (closeFrom .code 0 · p.pos) hsplit
  refine ⟨text, ⟨?_, hclosing⟩, hsplit, congrArg Point.pos hpast⟩
  obtain ⟨c, cs, rfl⟩ := List.exists_cons_of_ne_nil hclosing.ne_nil
  rw [hsplit] at hopen
  exact hopen

theorem IsBraced.past (h : IsBraced text) (rest : List Char) (n : Nat) :
    Point.pastBraces ⟨text ++ rest, n⟩ = ⟨rest, n + byteLength text⟩ := h.closing rest n

end ClassSort.Markup
