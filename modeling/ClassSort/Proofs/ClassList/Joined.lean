import ClassSort.Proofs.ClassList.Context
import ClassSort.Proofs.Text.Trim
import Mathlib.Data.List.Flatten

/-!
Class texts put next to each other. With a separator between them the classes of the whole are those
of the one and then those of the other; without one the last class of the one and the first of the
other become a single class, and there is one less.
-/

namespace ClassSort.ClassList

variable {xs ys : List Char}

/-- Neither text has a separator where the two meet. -/
def glued (xs ys : List Char) : Bool :=
  xs.getLast?.any (!isSeparator ·) && ys.head?.any (!isSeparator ·)

theorem length_classesOf_cons (c : Char) (cs : List Char) : (classesOf (c :: cs)).length =
    (classesOf cs).length + if !isSeparator c && !cs.head?.any (!isSeparator ·) then 1 else 0 := by
  cases hc : isSeparator c with
  | true => simp [classesOf_cons_separator hc]
  | false =>
    have hclass : ∀ d ∈ [c], isSeparator d = false := by simpa using hc
    cases cs with
    | nil =>
      have hsingle : classesOf ([c] ++ []) = [c] :: classesOf [] := classesOf_class (by simp) hclass (by simp)
      rw [List.append_nil] at hsingle
      simp [hsingle]
    | cons d ds =>
      cases hd : isSeparator d with
      | true =>
        have hsplit : classesOf ([c] ++ d :: ds) = [c] :: classesOf (d :: ds) :=
          classesOf_class (by simp) hclass (by simpa using hd)
        rw [List.singleton_append] at hsplit
        simp [hsplit, hd]
      | false =>
        obtain ⟨w, ws, hshort, hlong⟩ := classesOf_cons_class hc hd ds
        simp [hshort, hlong, hd]

/-- Where two texts are glued two classes become one. -/
theorem length_classesOf_append (xs ys : List Char) : (classesOf (xs ++ ys)).length +
    (if glued xs ys then 1 else 0) = (classesOf xs).length + (classesOf ys).length := by
  induction xs with
  | nil =>
    have hnone : classesOf [] = [] := rfl
    simp [glued, hnone]
  | cons c xs ih =>
    rw [List.cons_append, length_classesOf_cons, length_classesOf_cons]
    cases xs with
    | nil =>
      have hnone : classesOf [] = [] := rfl
      have hglued : glued [c] ys = (!isSeparator c && ys.head?.any (!isSeparator ·)) := rfl
      rw [hglued, hnone, List.nil_append]
      generalize ys.head?.any (!isSeparator ·) = next
      cases isSeparator c <;> cases next <;> simp [Nat.add_comm]
    | cons d xs =>
      have hglued : glued (c :: d :: xs) ys = glued (d :: xs) ys := by simp [glued]
      have hhead : (d :: xs ++ ys).head? = (d :: xs).head? := rfl
      rw [hglued, hhead]
      omega

theorem classesOf_append_of_tail {c : Char} (hlast : xs.getLast? = some c) (hc : isSeparator c = true)
    (ys : List Char) : classesOf (xs ++ ys) = classesOf xs ++ classesOf ys := by
  obtain ⟨front, rfl⟩ := List.getLast?_eq_some_iff.mp hlast
  have hnone : classesOf [] = [] := rfl
  rw [List.append_assoc, List.singleton_append, classesOf_append_cons hc, classesOf_append_cons hc, hnone,
    List.append_nil]

theorem classesOf_append_of_head {c : Char} (hhead : ys.head? = some c) (hc : isSeparator c = true)
    (xs : List Char) : classesOf (xs ++ ys) = classesOf xs ++ classesOf ys := by
  obtain ⟨behind, rfl⟩ := List.head?_eq_some_iff.mp hhead
  rw [classesOf_append_cons hc, classesOf_cons_separator hc]

/-- The classes of texts joined by spaces. -/
theorem classesOf_intercalate (texts : List (List Char)) :
    classesOf ([' '].intercalate texts) = texts.flatMap classesOf := by
  induction texts with
  | nil => rfl
  | cons t texts ih =>
    cases texts with
    | nil => simp
    | cons u texts =>
      rw [List.intercalate_cons_cons, List.append_assoc, List.singleton_append, classesOf_append_cons rfl, ih]
      rfl

theorem flatten_classesOf (cs : List Char) : (classesOf cs).flatten = cs.filter (!isSeparator ·) := by
  induction cs with
  | nil => rfl
  | cons c cs ih =>
    cases hc : isSeparator c with
    | true => rw [classesOf_cons_separator hc, ih, List.filter_cons_of_neg (by simp [hc])]
    | false =>
      have hclass : ∀ d ∈ [c], isSeparator d = false := by simpa using hc
      rw [List.filter_cons_of_pos (by simp [hc]), ← ih]
      by_cases hnext : ∀ d ∈ cs.head?, isSeparator d = true
      · have hsplit : classesOf ([c] ++ cs) = [c] :: classesOf cs := classesOf_class (by simp) hclass hnext
        rw [List.singleton_append] at hsplit
        rw [hsplit]
        rfl
      · cases cs with
        | nil => simp at hnext
        | cons d ds =>
          obtain ⟨w, ws, hshort, hlong⟩ := classesOf_cons_class hc (by simpa using hnext) ds
          rw [hshort, hlong]
          rfl

/-- Trimming keeps the classes of a text when it keeps all characters of them. -/
theorem classesOf_trimChars {cs : List Char}
    (h : cs.countP (!isSeparator ·) ≤ (trimChars cs).countP (!isSeparator ·)) :
    classesOf (trimChars cs) = classesOf cs := by
  obtain ⟨front, back, hcs, -, -⟩ := exists_trimmed cs
  generalize trimChars cs = kept at h hcs
  subst hcs
  simp only [List.countP_append] at h
  have hseparators (u : List Char) (hu : u.countP (!isSeparator ·) = 0) : ∀ c ∈ u, isSeparator c = true := by
    intro c hc
    simpa using List.countP_eq_zero.mp hu c hc
  rw [List.append_assoc, classesOf_separators (hseparators front (by omega))]
  by_cases hback : back = []
  · rw [hback, List.append_nil]
  · have hnone : classesOf [] = [] := rfl
    have happend := classesOf_append hback (hseparators back (by omega)) kept []
    rw [List.append_nil, hnone, List.append_nil] at happend
    exact happend.symm

end ClassSort.ClassList
