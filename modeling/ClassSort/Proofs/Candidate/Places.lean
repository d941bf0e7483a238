import ClassSort.Candidate

/-!
Texts listed by the places they stand at. A place is the row of numbers that leads to it from the top, and
places are ordered as a walk comes to them. Lists of what is found in the parts of a thing make up the
list of what is found in it.
-/

namespace ClassSort.Candidate

/-- `cs` are all that `finds` tells, listed by place. -/
def Lists (finds : List Nat → Candidate → Prop) (cs : List Candidate) : Prop :=
  ∃ located : List (List Nat × Candidate), located.map (·.2) = cs ∧
    (located.map (·.1)).Pairwise (· < ·) ∧ ∀ path c, (path, c) ∈ located ↔ finds path c

def Among {α : Type} (finds : α → List Nat → Candidate → Prop) (xs : List α) (first : Nat)
    (path : List Nat) (c : Candidate) : Prop :=
  ∃ i x rest, xs[i]? = some x ∧ path = (first + i) :: rest ∧ finds x rest c

namespace Lists

variable {finds finds' : List Nat → Candidate → Prop} {cs ds : List Candidate} {c : Candidate}

theorem congr (h : Lists finds cs) (hiff : ∀ path c, finds path c ↔ finds' path c) : Lists finds' cs := by
  obtain ⟨located, hmap, hsorted, hmem⟩ := h
  exact ⟨located, hmap, hsorted, fun path c => (hmem path c).trans (hiff path c)⟩

theorem nil (h : ∀ path c, ¬ finds path c) : Lists finds [] := ⟨[], rfl, .nil, by simpa using h⟩

theorem single (path : List Nat) (c : Candidate) : Lists (fun p d => p = path ∧ d = c) [c] :=
  ⟨[(path, c)], rfl, List.pairwise_singleton .., by simp⟩

theorem append (h : Lists finds cs) (h' : Lists finds' ds)
    (hbefore : ∀ path c path' c', finds path c → finds' path' c' → path < path') :
    Lists (fun path c => finds path c ∨ finds' path c) (cs ++ ds) := by
  obtain ⟨located, rfl, hsorted, hmem⟩ := h
  obtain ⟨located', rfl, hsorted', hmem'⟩ := h'
  refine ⟨located ++ located', List.map_append, ?_, fun path c => ?_⟩
  · rw [List.map_append]
    refine List.pairwise_append.mpr ⟨hsorted, hsorted', fun path hpath path' hpath' => ?_⟩
    obtain ⟨⟨_, c⟩, hc, rfl⟩ := List.mem_map.mp hpath
    obtain ⟨⟨_, c'⟩, hc', rfl⟩ := List.mem_map.mp hpath'
    exact hbefore _ c _ c' ((hmem _ _).mp hc) ((hmem' _ _).mp hc')
  · rw [List.mem_append, hmem, hmem']

theorem under (i : Nat) (h : Lists finds cs) :
    Lists (fun path c => ∃ rest, path = i :: rest ∧ finds rest c) cs := by
  obtain ⟨located, rfl, hsorted, hmem⟩ := h
  refine ⟨located.map fun (path, c) => (i :: path, c), by simp, ?_, fun path c => ?_⟩
  · simpa [List.pairwise_map, List.cons_lt_cons_iff] using hsorted
  · simp only [List.mem_map, Prod.mk.injEq, Prod.exists, hmem]
    constructor
    · rintro ⟨rest, c, hrest, rfl, rfl⟩
      exact ⟨rest, rfl, hrest⟩
    · rintro ⟨rest, rfl, hrest⟩
      exact ⟨rest, c, hrest, rfl, rfl⟩

theorem guard {q : Prop} [Decidable q] (h : Lists finds cs) :
    Lists (fun path c => q ∧ finds path c) (if q then cs else []) := by
  split
  · next hq => exact h.congr fun _ _ => (and_iff_right hq).symm
  · next hq => exact .nil fun _ _ hfinds => hq hfinds.1

/-- Two lists, one behind the other. -/
theorem fork {i j : Nat} (hij : i < j) (h : Lists finds cs) (h' : Lists finds' ds) :
    Lists (fun path c => (∃ rest, path = i :: rest ∧ finds rest c) ∨
      ∃ rest, path = j :: rest ∧ finds' rest c) (cs ++ ds) := by
  refine (h.under i).append (h'.under j) ?_
  rintro _ _ _ _ ⟨rest, rfl, -⟩ ⟨rest', rfl, -⟩
  exact List.cons_lt_cons_iff.mpr (.inl hij)

theorem among_nil {α : Type} {finds : α → List Nat → Candidate → Prop} {first : Nat} :
    Lists (Among finds [] first) [] :=
  nil fun _ _ ⟨_, _, _, hstands, _⟩ => nomatch hstands

theorem among_cons {α : Type} {finds : α → List Nat → Candidate → Prop} {x : α} {xs : List α} {first : Nat}
    (h : Lists (finds x) cs) (h' : Lists (Among finds xs (first + 1)) ds) :
    Lists (Among finds (x :: xs) first) (cs ++ ds) := by
  refine ((h.under first).append h' ?_).congr fun path c => ?_
  · rintro _ _ _ _ ⟨rest, rfl, -⟩ ⟨i, y, rest', -, rfl, -⟩
    exact List.cons_lt_cons_iff.mpr (.inl (by omega))
  · constructor
    · rintro (⟨rest, rfl, hrest⟩ | ⟨i, y, rest, hstands, rfl, hrest⟩)
      · exact ⟨0, x, rest, rfl, rfl, hrest⟩
      · exact ⟨i + 1, y, rest, hstands, by rw [Nat.add_assoc, Nat.add_comm 1], hrest⟩
    · rintro ⟨i, y, rest, hstands, rfl, hrest⟩
      cases i with
      | zero =>
        cases hstands
        exact .inl ⟨rest, rfl, hrest⟩
      | succ i => exact .inr ⟨i, y, rest, hstands, by rw [Nat.add_assoc, Nat.add_comm 1], hrest⟩

theorem among {α : Type} {finds : α → List Nat → Candidate → Prop} {f : α → List Candidate} {xs : List α}
    (h : ∀ x ∈ xs, Lists (finds x) (f x)) (first : Nat) : Lists (Among finds xs first) (xs.flatMap f) := by
  induction xs generalizing first with
  | nil => exact among_nil
  | cons x xs ih =>
    obtain ⟨hx, hxs⟩ := List.forall_mem_cons.mp h
    exact among_cons hx (ih hxs (first + 1))

end Lists

end ClassSort.Candidate
