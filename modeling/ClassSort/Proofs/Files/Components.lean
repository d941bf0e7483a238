import ClassSort.Files.Path
import Mathlib.Data.List.Induction

/-!
How absolute paths are taken apart and put together. A name put behind a path is one more component,
the parent has one component less, and the root directory has no parent; idle pieces never count.
-/

namespace ClassSort.Path

/-- A name that is one component wherever it is put. -/
structure IsPlainName (n : String) : Prop where
  whole : '/' ∉ n.toList
  busy : isIdle n.toList = false
  ahead : n ≠ ".."

def rooted (body : List Char) : Path := ⟨String.ofList ('/' :: body)⟩

def componentsOf (segments : List (List Char)) : List Component := (segments.filter (!isIdle ·)).map component

variable {p : Path} {body : List Char} {ss : List (List Char)} {n : String}

theorem segments_eq_splitOn (cs : List Char) : segments cs = cs.splitOn '/' := by
  induction cs with
  | nil => rfl
  | cons c cs ih =>
    rw [segments, ih, List.splitOn, List.splitOn, List.splitOnP_cons_eq_if_modifyHead]
    cases hsplit : List.splitOnP (· == '/') cs with
    | nil => exact absurd hsplit (List.splitOnP_ne_nil _ cs)
    | cons s rest => by_cases hc : c == '/' <;> simp [hc]

theorem segments_ne_nil (cs : List Char) : segments cs ≠ [] := by
  rw [segments_eq_splitOn]
  exact List.splitOn_ne_nil _ cs

theorem segments_append (a b : List Char) : segments (a ++ '/' :: b) = segments a ++ segments b := by
  simp only [segments_eq_splitOn, List.splitOn]
  exact List.splitOnP_append_cons a b (beq_self_eq_true '/')

theorem segments_of_whole (h : '/' ∉ body) : segments body = [body] := by
  rw [segments_eq_splitOn, List.splitOn_eq_singleton h]

theorem whole_of_mem_segments {s : List Char} (h : s ∈ segments body) : '/' ∉ s := by
  induction body generalizing s with
  | nil =>
    rw [segments, List.mem_singleton] at h
    simp [h]
  | cons c cs ih =>
    rw [segments] at h
    split at h
    · next first rest hcs =>
      split at h
      · rcases List.mem_cons.mp h with rfl | h
        · simp
        · exact ih (hcs ▸ h)
      · next hc =>
        have hfirst := ih (hcs ▸ List.mem_cons_self)
        rcases List.mem_cons.mp h with rfl | h
        · rw [List.mem_cons, not_or]
          exact ⟨fun e => hc (beq_of_eq e.symm), hfirst⟩
        · exact ih (hcs ▸ List.mem_cons_of_mem _ h)
    · next hcs => exact absurd hcs (segments_ne_nil cs)

@[simp] theorem componentsOf_nil : componentsOf [] = [] := rfl

@[simp] theorem componentsOf_append (ss ts : List (List Char)) :
    componentsOf (ss ++ ts) = componentsOf ss ++ componentsOf ts := by
  simp [componentsOf]

theorem componentsOf_idle {s : List Char} (h : isIdle s = true) : componentsOf (s :: ss) = componentsOf ss := by
  simp [componentsOf, h]

theorem componentsOf_busy {s : List Char} (h : isIdle s = false) :
    componentsOf (s :: ss) = component s :: componentsOf ss := by
  simp [componentsOf, h]

theorem root_notMem_componentsOf : .root ∉ componentsOf ss := by
  intro h
  obtain ⟨s, -, hs⟩ := List.mem_map.mp h
  rw [component] at hs
  split at hs <;> cases hs

theorem IsPlainName.isAbsolute (h : IsPlainName n) : (Path.mk n).isAbsolute = false := by
  rw [Path.isAbsolute, beq_eq_false_iff_ne]
  exact fun hhead => h.whole (List.mem_of_mem_head? hhead)

theorem IsPlainName.not_parent (h : IsPlainName n) : (n.toList == ['.', '.']) = false := by
  rw [beq_eq_false_iff_ne]
  exact fun heq => h.ahead (String.toList_inj.mp heq)

theorem IsPlainName.componentsOf (h : IsPlainName n) : componentsOf [n.toList] = [.name n] := by
  simp [componentsOf_busy h.busy, component, h.not_parent]

/-- Pieces without slashes come back from the text that they make. -/
theorem componentsOf_intercalate (h : ∀ s ∈ ss, '/' ∉ s) :
    componentsOf (segments (['/'].intercalate ss)) = componentsOf ss := by
  by_cases hss : ss = []
  · rw [hss]
    rfl
  · rw [segments_eq_splitOn, List.splitOn_intercalate _ h hss]

theorem exists_rooted (h : p.isAbsolute = true) : ∃ body, p = rooted body := by
  obtain ⟨text⟩ := p
  have hhead : text.toList.head? = some '/' := by simpa [isAbsolute] using h
  obtain ⟨body, hbody⟩ := List.head?_eq_some_iff.mp hhead
  exact ⟨body, by rw [rooted, ← hbody, String.ofList_toList]⟩

@[simp] theorem isAbsolute_rooted (body : List Char) : (rooted body).isAbsolute = true := by
  simp [isAbsolute, rooted]

@[simp] theorem analyse_rooted (body : List Char) :
    (rooted body).analyse = (some .root, ['/'], segments body) := by
  simp [analyse, rooted]

@[simp] theorem components_rooted (body : List Char) :
    (rooted body).components = .root :: componentsOf (segments body) := by
  simp [components, componentsOf]

theorem ofBody_root (ss : List (List Char)) : ofBody ['/'] ss = rooted (['/'].intercalate ss) := rfl

/-- The pieces of a path with a name behind it: some that stand for the path, and the name. -/
theorem exists_join (h : IsPlainName n) (body : List Char) : ∃ joined ss, (rooted body).join ⟨n⟩ = rooted joined ∧
    segments joined = ss ++ [n.toList] ∧ componentsOf ss = componentsOf (segments body) := by
  have hrelative := h.isAbsolute
  rcases List.eq_nil_or_concat body with rfl | ⟨front, c, hbody⟩
  · exact ⟨n.toList, [], by simp [join, hrelative, rooted], segments_of_whole h.whole, rfl⟩
  · rw [List.concat_eq_append] at hbody
    subst hbody
    by_cases hc : c = '/'
    · refine ⟨front ++ '/' :: n.toList, segments front, ?_, ?_, ?_⟩
      · simp [join, hrelative, rooted, hc, List.getLast?_cons, ← String.toList_inj]
      · rw [segments_append, segments_of_whole h.whole]
      · rw [hc, segments_append, componentsOf_append]
        exact (List.append_nil _).symm
    · refine ⟨front ++ [c] ++ '/' :: n.toList, segments (front ++ [c]), ?_, ?_, rfl⟩
      · simp [join, hrelative, rooted, hc, List.getLast?_cons, ← String.toList_inj]
      · rw [segments_append, segments_of_whole h.whole]

theorem isAbsolute_join (hp : p.isAbsolute = true) (h : IsPlainName n) : (p.join ⟨n⟩).isAbsolute = true := by
  obtain ⟨body, rfl⟩ := exists_rooted hp
  obtain ⟨joined, ss, hjoin, -⟩ := exists_join h body
  rw [hjoin, isAbsolute_rooted]

theorem components_join (hp : p.isAbsolute = true) (h : IsPlainName n) :
    (p.join ⟨n⟩).components = p.components ++ [.name n] := by
  obtain ⟨body, rfl⟩ := exists_rooted hp
  obtain ⟨joined, ss, hjoin, hsegments, hss⟩ := exists_join h body
  rw [hjoin, components_rooted, components_rooted, hsegments, componentsOf_append, hss, h.componentsOf,
    List.cons_append]

/-- Idle pieces at the end are trimmed off, and what is in front of them ends with a component. -/
theorem trimIdleEnd_cases (ss : List (List Char)) : trimIdleEnd ss = [] ∧ componentsOf ss = [] ∨
    ∃ front s, trimIdleEnd ss = front ++ [s] ∧ front ++ [s] <+: ss ∧ isIdle s = false ∧
      componentsOf ss = componentsOf front ++ [component s] := by
  induction ss using List.reverseRecOn with
  | nil => exact .inl ⟨rfl, rfl⟩
  | append_singleton ss s ih =>
    cases hs : isIdle s with
    | true =>
      have htrim : trimIdleEnd (ss ++ [s]) = trimIdleEnd ss := by simp [trimIdleEnd, hs]
      have hcomponents : componentsOf (ss ++ [s]) = componentsOf ss := by
        rw [componentsOf_append, componentsOf_idle hs, componentsOf_nil, List.append_nil]
      rw [htrim, hcomponents]
      refine ih.imp_right ?_
      rintro ⟨front, t, htrim, hfront, ht, hcs⟩
      exact ⟨front, t, htrim, hfront.trans (List.prefix_append _ _), ht, hcs⟩
    | false =>
      refine .inr ⟨ss, s, by simp [trimIdleEnd, hs], List.prefix_refl _, hs, ?_⟩
      rw [componentsOf_append, componentsOf_busy hs, componentsOf_nil]

theorem isPrefix_trimIdleEnd (ss : List (List Char)) : trimIdleEnd ss <+: ss := by
  rcases trimIdleEnd_cases ss with ⟨hnil, -⟩ | ⟨front, s, htrim, hfront, -⟩
  · exact hnil ▸ List.nil_prefix
  · exact htrim ▸ hfront

theorem componentsOf_trimIdleEnd (ss : List (List Char)) : componentsOf (trimIdleEnd ss) = componentsOf ss := by
  rcases trimIdleEnd_cases ss with ⟨hnil, hcs⟩ | ⟨front, s, htrim, -, hs, hcs⟩
  · rw [hnil, hcs, componentsOf_nil]
  · rw [htrim, hcs, componentsOf_append, componentsOf_busy hs, componentsOf_nil]

/-- The parent of an absolute path has its components but the last; only the root has none. -/
theorem parent?_cases (hp : p.isAbsolute = true) : p.components = [.root] ∧ p.parent? = none ∨
    ∃ above, p.parent? = some above ∧ above.isAbsolute = true ∧ above.components = p.components.dropLast := by
  obtain ⟨body, rfl⟩ := exists_rooted hp
  rw [components_rooted, parent?, analyse_rooted]
  dsimp only
  rcases trimIdleEnd_cases (segments body) with ⟨hnil, hcs⟩ | ⟨front, s, htrim, hfront, -, hcs⟩
  · exact .inl ⟨by rw [hcs], by simp [hnil]⟩
  · have hwhole : ∀ t ∈ trimIdleEnd front, '/' ∉ t := fun t ht =>
      whole_of_mem_segments (hfront.subset (List.mem_append_left _ ((isPrefix_trimIdleEnd front).subset ht)))
    refine .inr ⟨ofBody ['/'] (trimIdleEnd front), ?_, ?_, ?_⟩
    · rw [htrim]
      split
      · next hnil => simp at hnil
      · rw [List.dropLast_concat]
    · rw [ofBody_root, isAbsolute_rooted]
    · rw [ofBody_root, components_rooted, componentsOf_intercalate hwhole, componentsOf_trimIdleEnd, hcs,
        ← List.cons_append, List.dropLast_concat]

/-- A path has no more components than characters. -/
theorem length_components_le (hp : p.isAbsolute = true) : p.components.length ≤ p.text.length := by
  obtain ⟨body, rfl⟩ := exists_rooted hp
  have hcount (cs : List Char) : ((segments cs).filter (· ≠ [])).length ≤ cs.length := by
    induction cs with
    | nil => simp [segments]
    | cons c cs ih =>
      rw [segments]
      split
      · next s rest hcs =>
        rw [hcs] at ih
        split
        · simpa using Nat.le_succ_of_le ih
        · by_cases hs : s = []
          · simpa [hs] using ih
          · simpa [hs] using Nat.le_succ_of_le ih
      · simp
  have hbusy : (componentsOf (segments body)).length ≤ ((segments body).filter (· ≠ [])).length := by
    rw [componentsOf, List.length_map, ← List.countP_eq_length_filter, ← List.countP_eq_length_filter]
    refine List.countP_mono_left fun s _ hs => ?_
    simp only [isIdle, Bool.not_eq_true', Bool.or_eq_false_iff, beq_eq_false_iff_ne] at hs
    simpa using hs.1
  have := hcount body
  rw [components_rooted, rooted, List.length_cons, String.length_ofList, List.length_cons]
  omega

end ClassSort.Path
