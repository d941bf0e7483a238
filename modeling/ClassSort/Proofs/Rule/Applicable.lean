import ClassSort.Proofs.Checker.Passes
import ClassSort.Proofs.Markup.StyleTags
import ClassSort.Proofs.Rule.CutOff
import ClassSort.Proofs.Rule.Offsets
import ClassSort.Proofs.Rule.OnePass

/-!
No rule finds anything that cannot be put right where it says. Every finding was read from its
range, or stands where a tag ends, so the range can be cut out of the text; and fixes that can all
be cut out are applied or put off, never refused.
-/

namespace ClassSort

/-- Findings whose ranges can be cut out of a text, listed by range. -/
structure Applicable (source : String) (found : List Violation) : Prop where
  cuts : ∀ v ∈ found, v.range.Cuts source.toList
  ordered : found.Pairwise fun v w => v.range.le w.range = true

variable {source : String} {vs : List Violation}

theorem Applicable.of_cuts (h : ∀ v ∈ vs, v.range.Cuts source.toList) :
    Applicable source (sortViolations vs) where
  cuts v hv := h v (mem_sortViolations.mp hv)
  ordered := sortViolations_ordered vs

theorem Applicable.sublist {ws : List Violation} (h : Applicable source vs) (hsub : ws.Sublist vs) :
    Applicable source ws where
  cuts v hv := h.cuts v (hsub.subset hv)
  ordered := h.ordered.sublist hsub

namespace Sorting

theorem dropSameRange_sublist (vs : List Violation) : (dropSameRange vs).Sublist vs := by
  fun_induction dropSameRange vs with
  | case1 a b rest hnone ih => exact (List.nil_sublist _).cons_cons a
  | case2 a b rest c kept hkept hsame ih =>
    rw [hkept] at ih
    exact ((List.sublist_cons_self c kept).trans ih).cons_cons a
  | case3 a b rest c kept hkept hother ih =>
    rw [hkept] at ih
    exact ih.cons_cons a
  | case4 vs => exact .refl _

theorem violations_applicable {orders : OrderMap} {removeDuplicates : Bool} {cs : List Candidate}
    (h : ∀ c ∈ cs, c.CutFrom source) : Applicable source (violations orders removeDuplicates cs) := by
  have hcuts : ∀ v ∈ cs.filterMap (violation? orders removeDuplicates), v.range.Cuts source.toList := by
    intro v hv
    obtain ⟨c, hc, hfound⟩ := List.mem_filterMap.mp hv
    rw [violation?_range hfound]
    exact (h c hc).cuts
  exact (Applicable.of_cuts hcuts).sublist (dropSameRange_sublist _)

variable {σ κ : Type} {o : Ranking σ κ} {roots : List Node} {options : SortOptions}
  {r r' : Resolver κ} {s s' : σ} {found : List Violation}

theorem check_applicable (h : check o source roots options r s = (.ok found, r', s')) :
    Applicable source found := by
  unfold check at h
  dsimp only at h
  split at h
  · cases h
    exact ⟨by simp, .nil⟩
  · split at h
    · cases h
    · cases h
      exact violations_applicable (Candidate.collect_cut roots)

end Sorting

theorem Grouping.check_cuts {n : Node} {v : Violation} (h : Grouping.check source n = some v) :
    v.range.Cuts source.toList := by
  unfold Grouping.check at h
  split at h
  · next span parts =>
    split at h
    · cases h
    · obtain ⟨current, hcurrent, h⟩ := Option.bind_eq_some_iff.mp h
      dsimp only at h
      obtain ⟨texts, -, h⟩ := Option.bind_eq_some_iff.mp h
      split at h
      · cases h
      · cases h
        exact Span.cuts_of_text hcurrent
  · cases h

theorem StyleLang.check_cuts {block : StyleBlock} {v : Violation} (hstands : block.Stands source.toList)
    (h : StyleLang.check source block = some v) : v.range.Cuts source.toList := by
  unfold StyleLang.check at h
  dsimp only at h
  obtain ⟨css, -, h⟩ := Option.bind_eq_some_iff.mp h
  split at h
  · cases h
  · split at h
    · next present hpresent =>
      cases h
      exact hstands.lang present hpresent
    · cases h
      exact Span.cuts_of_boundaries hstands.tagEnd hstands.tagEnd (Nat.le_refl _)

theorem Source.styleBlocks_stand {kind : FileKind} :
    ∀ block ∈ Source.styleBlocks source kind, block.Stands source.toList := by
  intro block hblock
  unfold Source.styleBlocks at hblock
  split at hblock
  · obtain ⟨f, hf, hblock⟩ := List.mem_filterMap.mp hblock
    split at hblock
    · cases hblock
      exact Markup.scan_style hf
    · cases hblock
  · cases hblock

namespace Checker

variable {σ κ : Type} {o : Oracle σ κ} {files : FileTree} {now : Nat} {path : Path}
  {c c' : Checker κ} {s s' : σ} {found : List Violation}

theorem styleViolations_cuts {kind : FileKind} :
    ∀ v ∈ styleViolations kind source, v.range.Cuts source.toList := by
  intro v hv
  unfold styleViolations at hv
  split at hv
  · obtain ⟨block, hblock, hfound⟩ := List.mem_filterMap.mp hv
    exact StyleLang.check_cuts (Source.styleBlocks_stand block hblock) hfound
  · cases hv

theorem groupingViolations_cuts {kind : FileKind} {roots : List Node} :
    ∀ v ∈ groupingViolations kind source roots, v.range.Cuts source.toList := by
  intro v hv
  unfold groupingViolations at hv
  split at hv
  · obtain ⟨n, -, hfound⟩ := List.mem_filterMap.mp hv
    exact Grouping.check_cuts hfound
  · cases hv

theorem sortingViolations_cuts {roots : List Node}
    (h : c.sortingViolations o files now path source roots s = (.ok found, c', s')) :
    ∀ v ∈ found, v.range.Cuts source.toList := by
  unfold sortingViolations at h
  split at h
  · cases h
    simp
  · split at h
    · cases h
    · next id service s₁ _ =>
      unfold Service.onResolver at h
      dsimp only at h
      split at h
      · cases h
        simp
      · next r _ =>
        obtain ⟨result, r', s₂, hcheck⟩ : ∃ result r' s₂,
            Sorting.check o.toRanking source roots c.settings.sort r s₁ = (result, r', s₂) :=
          ⟨_, _, _, rfl⟩
        simp only [hcheck] at h
        cases result with
        | error e => cases h
        | ok found =>
          cases h
          exact (Sorting.check_applicable hcheck).cuts

/-- The findings of a check can all be applied to the text that was checked. -/
theorem check_applicable (h : c.check o files now path source s = (.ok found, c', s')) :
    Applicable source found := by
  rcases check_ok h with ⟨-, rfl, -, -⟩ | ⟨kind, roots, parser, sorting, -, -, hsorting, rfl⟩
  · exact ⟨by simp, .nil⟩
  · refine .of_cuts fun v hv => ?_
    rcases List.mem_append.mp hv with hv | hv
    · rcases List.mem_append.mp hv with hv | hv
      · exact styleViolations_cuts v hv
      · exact sortingViolations_cuts hsorting v hv
    · exact groupingViolations_cuts v hv

/-- A check fails for want of trees or of orders only. -/
theorem check_not_edit {cause : CheckError} (h : c.check o files now path source s = (.error cause, c', s'))
    (e : InvalidRange) : cause ≠ .edit e := by
  obtain ⟨kind, -, ⟨cause, parser, -, rfl, -⟩ | ⟨roots, parser, -, hsorting⟩⟩ := check_error h
  · nofun
  · unfold sortingViolations at hsorting
    split at hsorting
    · cases hsorting
    · split at hsorting
      · cases hsorting
        nofun
      · dsimp only at hsorting
        generalize Service.onResolver _ _ _ _ _ = ran at hsorting
        obtain ⟨result, service, s⟩ := ran
        cases result with
        | error e =>
          cases hsorting
          nofun
        | ok found => cases hsorting

/-- What is still found can be applied to the text it was found in, from pass to pass. -/
theorem fixFrom_error {clock : Nat → Nat} {left : Nat} {done : FixOutcome} {cause : CheckError}
    (hremaining : Applicable done.output done.remaining)
    (h : fixFrom o files clock path left done c s = (.error cause, c', s')) (e : InvalidRange) :
    cause ≠ .edit e := by
  induction left generalizing done c s with
  | zero => cases h
  | succ left ih =>
    obtain ⟨fixed, -, -, hfixed, -⟩ := applyViolations_ok hremaining.cuts
    rw [fixFrom] at h
    split at h
    · cases h
    · simp only [hfixed] at h
      split at h
      · cases h
      · obtain ⟨result, c₁, s₁, hcheck⟩ : ∃ result c₁ s₁, c.check o files (clock (done.passes + 1)) path
          fixed.output s = (result, c₁, s₁) := ⟨_, _, _, rfl⟩
        rw [hcheck] at h
        cases result with
        | error cause =>
          cases h
          exact check_not_edit hcheck e
        | ok remaining =>
          refine ih ?_ h
          exact check_applicable hcheck

theorem fix_error {clock : Nat → Nat} {cause : CheckError}
    (h : c.fix o files clock path source s = (.error cause, c', s')) (e : InvalidRange) :
    cause ≠ .edit e := by
  unfold fix at h
  obtain ⟨result, c₁, s₁, hcheck⟩ : ∃ result c₁ s₁, c.check o files (clock 0) path source s =
    (result, c₁, s₁) := ⟨_, _, _, rfl⟩
  rw [hcheck] at h
  cases result with
  | error cause =>
    cases h
    exact check_not_edit hcheck e
  | ok found =>
    refine fixFrom_error ?_ h e
    exact check_applicable hcheck

end Checker

variable {σ κ : Type}

/-- Fixes are never refused for a range. What a check finds in a file can be applied to it, so no
fix fails for one; and the two rules that read ranges off a forest take any forest, and stay among
the machine words on one whose offsets are such. -/
theorem findings_applicable (o : Oracle σ κ) :
    (∀ (files : FileTree) (path : Path) (source : String) (c : Checker κ) (s : σ),
      (∀ now found, (c.check o files now path source s).1 = .ok found →
        Applicable source found ∧ ∃ fixed, applyViolations source found = .ok fixed) ∧
      ∀ clock e, (c.fix o files clock path source s).1 ≠ .error (.edit e)) ∧
    ∀ (source : String) (roots : List Node) (options : SortOptions) (r : Resolver κ) (s : σ),
      (∀ found, (Sorting.check o.toRanking source roots options r s).1 = .ok found →
        Applicable source found ∧ ∃ fixed, applyViolations source found = .ok fixed) ∧
      (∀ root v, Grouping.check source root = some v →
        Applicable source [v] ∧ ∃ fixed, applyViolations source [v] = .ok fixed) ∧
      (byteLength source.toList < wordLimit → (∀ root ∈ roots, root.Spans Span.Addressable) →
        Checked.sorting? o.toRanking source roots options r s =
            some (Sorting.check o.toRanking source roots options r s) ∧
          ∀ root ∈ roots, Checked.grouping? source root = some (Grouping.check source root)) := by
  have happly {source : String} {found : List Violation} (h : Applicable source found) :
      Applicable source found ∧ ∃ fixed, applyViolations source found = .ok fixed := by
    obtain ⟨fixed, -, -, hfixed, -⟩ := applyViolations_ok h.cuts
    exact ⟨h, fixed, hfixed⟩
  refine ⟨fun files path source c s => ⟨fun now found h => ?_, fun clock e h => ?_⟩,
    fun source roots options r s => ⟨fun found h => ?_, fun root v h => ?_, fun hsource hroots => ?_⟩⟩
  · exact happly (Checker.check_applicable (Prod.ext h rfl))
  · exact Checker.fix_error (Prod.ext h rfl) e rfl
  · exact happly (Sorting.check_applicable (Prod.ext h rfl))
  · exact happly ⟨by simpa using Grouping.check_cuts h, List.pairwise_singleton ..⟩
  · exact ⟨Checked.sorting?_eq o.toRanking options r s hsource hroots,
      fun root hroot => Checked.grouping?_eq (hroots root hroot)⟩

def accented : String := "é \"b a\""

def strayRoots : List Node :=
  [.call ⟨0, 8⟩ (.name "clsx")
    [.literal ⟨0, 4⟩, .literal ⟨8, 3⟩, .literal ⟨wordLimit - 3, wordLimit - 1⟩, .literal ⟨3, 8⟩]]

def unclosedDocument : String := "<style>@apply</style><p class=\"é\x7bclsx('b a')\x7dü\x7bx\x7d"

theorem findings_applicable_stray :
    let o : Oracle Unit OrderTable := OrderTable.fixed Sorting.alphabet
    let inDocument : List Violation :=
      [⟨StyleLang.rule, ⟨6, 6⟩, " lang=\"postcss\"", StyleLang.message⟩,
        ⟨Grouping.rule, ⟨31, 50⟩, "é ü \x7bclsx('b a')\x7d \x7bx\x7d", Grouping.message⟩,
        ⟨Sorting.rule, ⟨40, 43⟩, "a b", Sorting.message⟩]
    let inForest : List Violation := [⟨Sorting.rule, ⟨4, 7⟩, "a b", Sorting.message⟩]
    let sorted := Sorting.check o.toRanking accented strayRoots .standard (.new Sorting.alphabet) ()
    (inlineChecker.check o ⟨[]⟩ 0 ⟨"a.svelte"⟩ unclosedDocument ()).1 = .ok inDocument ∧
      Applicable unclosedDocument inDocument ∧ sorted.1 = .ok inForest ∧ Applicable accented inForest ∧
      Checked.sorting? o.toRanking accented strayRoots .standard (.new Sorting.alphabet) () =
        some sorted := by
  intro o inDocument inForest sorted
  obtain ⟨hfiles, hforests⟩ := findings_applicable o
  obtain ⟨hsorting, -, hwords⟩ :=
    hforests accented strayRoots .standard (.new Sorting.alphabet) ()
  have hdocument : (inlineChecker.check o ⟨[]⟩ 0 ⟨"a.svelte"⟩ unclosedDocument ()).1 =
      .ok inDocument := by decide +kernel
  have hforest : sorted.1 = .ok inForest := by decide +kernel
  refine ⟨hdocument, ((hfiles _ _ _ _ _).1 0 inDocument hdocument).1, hforest,
    (hsorting inForest hforest).1, (hwords (by decide) ?_).1⟩
  simp [strayRoots, Node.Spans, Node.AllSpans, Span.Addressable, wordLimit]

end ClassSort
