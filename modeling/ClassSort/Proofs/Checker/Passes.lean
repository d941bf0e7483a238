import ClassSort.Checker

/-!
The passes of a fix. Each applies what the check before has found and checks the text that comes out.
So what a fix leaves as remaining is what its last check found in its output, whichever way the passes
end.
-/

namespace ClassSort.Checker

variable {σ κ : Type} {o : Oracle σ κ} {files : FileTree} {clock : Nat → Nat} {path : Path}
  {source : String} {c c₁ c' : Checker κ} {s s₁ s' : σ} {done last : FixOutcome}

/-- A fix between two passes: the text with what the last check has found in it, and the checker as that
check has left it. -/
inductive Passes (o : Oracle σ κ) (files : FileTree) (clock : Nat → Nat) (path : Path) (source : String)
    (c : Checker κ) (s : σ) : FixOutcome → Checker κ → σ → Prop where
  | first {found : List Violation} {c₁ : Checker κ} {s₁ : σ} :
      c.check o files (clock 0) path source s = (.ok found, c₁, s₁) →
      Passes o files clock path source c s ⟨source, 0, found⟩ c₁ s₁
  | again {done : FixOutcome} {fixed : Fixed} {found : List Violation} {c₁ c₂ : Checker κ} {s₁ s₂ : σ} :
      Passes o files clock path source c s done c₁ s₁ → done.remaining ≠ [] →
      applyViolations done.output done.remaining = .ok fixed → fixed.applied ≠ 0 → fixed.output ≠ done.output →
      check o files (clock (done.passes + 1)) path fixed.output c₁ s₁ = (.ok found, c₂, s₂) →
      Passes o files clock path source c s ⟨fixed.output, done.passes + 1, found⟩ c₂ s₂

/-- What remains was found in the text by the check made last. -/
theorem Passes.lastCheck (h : Passes o files clock path source c s done c' s') :
    ∃ (c₁ : Checker κ) (s₁ : σ),
      c₁.check o files (clock done.passes) path done.output s₁ = (.ok done.remaining, c', s') := by
  cases h with
  | first hcheck => exact ⟨c, s, hcheck⟩
  | again _ _ _ _ _ hcheck => exact ⟨_, _, hcheck⟩

def Ended (done : FixOutcome) : Prop :=
  done.remaining = [] ∨ done.passes = maxPasses ∨
    ∃ fixed, applyViolations done.output done.remaining = .ok fixed ∧
      (fixed.applied = 0 ∨ fixed.output = done.output)

theorem Passes.fixFrom {left : Nat} (h : Passes o files clock path source c s done c₁ s₁)
    (hleft : done.passes + left = maxPasses)
    (hfix : Checker.fixFrom o files clock path left done c₁ s₁ = (.ok last, c', s')) :
    Passes o files clock path source c s last c' s' ∧ Ended last := by
  induction left generalizing done c₁ s₁ with
  | zero =>
    cases hfix
    exact ⟨h, .inr (.inl hleft)⟩
  | succ left ih =>
    rw [Checker.fixFrom] at hfix
    split at hfix
    · next hempty =>
      cases hfix
      exact ⟨h, .inl (List.isEmpty_iff.mp hempty)⟩
    · next hremaining =>
      split at hfix
      · cases hfix
      · next fixed hfixed =>
        split at hfix
        · next hidle =>
          cases hfix
          exact ⟨h, .inr (.inr ⟨fixed, hfixed, hidle⟩)⟩
        · next hchanged =>
          rw [not_or] at hchanged
          dsimp only at hfix
          split at hfix
          · cases hfix
          · next found c₂ s₂ hcheck =>
            have hnext : Passes o files clock path source c s ⟨fixed.output, done.passes + 1, found⟩ c₂ s₂ :=
              .again h (by simpa using hremaining) hfixed hchanged.1 hchanged.2 hcheck
            exact ih hnext (by dsimp only; omega) hfix

theorem fix_passes (h : c.fix o files clock path source s = (.ok done, c', s')) :
    Passes o files clock path source c s done c' s' ∧ Ended done := by
  rw [fix] at h
  split at h
  · cases h
  · next found c₁ s₁ hcheck => exact (Passes.first hcheck).fixFrom (Nat.zero_add _) h

/-- The sorting rule changes nothing of a checker but its service. -/
theorem sortingViolations_keeps {now : Nat} {roots : List Node} {result : Except CheckError (List Violation)}
    (h : c.sortingViolations o files now path source roots s = (result, c', s')) :
    c' = { c with service := c'.service } := by
  rw [sortingViolations] at h
  split at h
  · cases h
    rfl
  · split at h <;> (cases h; rfl)

section

variable {now : Nat}

/-- A check that succeeds has found nothing in a file of no known kind, else what the rules find in the roots
that its parser comes to. -/
theorem check_ok {found : List Violation} (h : c.check o files now path source s = (.ok found, c', s')) :
    FileKind.ofPath? path = none ∧ found = [] ∧ c' = c ∧ s' = s ∨
    ∃ kind roots parser sorting, FileKind.ofPath? path = some kind ∧
      c.parser.roots source kind = (.ok roots, parser) ∧
      sortingViolations o files now path source roots { c with parser } s = (.ok sorting, c', s') ∧
      found = sortViolations (styleViolations kind source ++ sorting ++ groupingViolations kind source roots) := by
  rw [check] at h
  split at h
  · next hkind =>
    cases h
    exact .inl ⟨hkind, rfl, rfl, rfl⟩
  · next kind hkind =>
    split at h
    · cases h
    · next roots parser hroots =>
      rw [findings] at h
      split at h
      · cases h
      · next sorting c₁ s₁ hsorting =>
        cases h
        exact .inr ⟨kind, roots, parser, sorting, hkind, hroots, hsorting, rfl⟩

/-- A check fails in its parser or in the sorting rule. -/
theorem check_error {cause : CheckError} (h : c.check o files now path source s = (.error cause, c', s')) :
    ∃ kind, FileKind.ofPath? path = some kind ∧
      ((∃ e parser, c.parser.roots source kind = (.error e, parser) ∧ cause = .parsing path e ∧
          c' = { c with parser } ∧ s' = s) ∨
        ∃ roots parser, c.parser.roots source kind = (.ok roots, parser) ∧
          sortingViolations o files now path source roots { c with parser } s = (.error cause, c', s')) := by
  rw [check] at h
  split at h
  · cases h
  · next kind hkind =>
    refine ⟨kind, hkind, ?_⟩
    split at h
    · next e parser hroots =>
      cases h
      exact .inl ⟨e, parser, hroots, rfl, rfl, rfl⟩
    · next roots parser hroots =>
      rw [findings] at h
      split at h
      · next e c₁ s₁ hsorting =>
        cases h
        exact .inr ⟨roots, parser, hroots, hsorting⟩
      · cases h

theorem check_cwd {result : Except CheckError (List Violation)}
    (h : c.check o files now path source s = (result, c', s')) : c'.cwd = c.cwd := by
  cases result with
  | ok found =>
    rcases check_ok h with ⟨-, -, rfl, -⟩ | ⟨kind, roots, parser, sorting, -, -, hsorting, -⟩
    · rfl
    · rw [sortingViolations_keeps hsorting]
  | error cause =>
    obtain ⟨kind, -, ⟨e, parser, -, -, rfl, -⟩ | ⟨roots, parser, -, hsorting⟩⟩ := check_error h
    · rfl
    · rw [sortingViolations_keeps hsorting]

end

theorem Passes.cwd (h : Passes o files clock path source c s done c' s') : c'.cwd = c.cwd := by
  induction h with
  | first hcheck => exact check_cwd hcheck
  | again _ _ _ _ _ hcheck ih => exact (check_cwd hcheck).trans ih

end ClassSort.Checker
