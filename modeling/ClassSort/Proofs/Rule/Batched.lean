import ClassSort.Proofs.Order.Coherence
import ClassSort.Proofs.Rule.Applicable

/-!
A file is checked with one batch, and this comes to what sorting every class text alone comes to. The
findings are listed by range, each range once; where two texts have the same range the one collected
first among those that change counts. A batch that fails leaves neither findings nor a trace.
-/

namespace ClassSort

def Span.Precedes (s t : Span) : Prop := s.start < t.start ∨ s.start = t.start ∧ s.stop < t.stop

theorem Span.Precedes.ne {s t : Span} (h : s.Precedes t) : s ≠ t := by
  rintro rfl
  unfold Span.Precedes at h
  omega

theorem Span.Precedes.trans {s t u : Span} (h : s.Precedes t) (h' : t.Precedes u) : s.Precedes u := by
  unfold Span.Precedes at *
  omega

theorem Span.precedes_of_le {s t : Span} (h : s.le t = true) (hne : s ≠ t) : s.Precedes t := by
  obtain ⟨start, stop⟩ := s
  obtain ⟨start', stop'⟩ := t
  simp only [Span.le, Bool.or_eq_true, Bool.and_eq_true, beq_iff_eq, decide_eq_true_eq, ne_eq,
    Span.mk.injEq, Span.Precedes] at *
  omega

/-- The first of the elements that are tied with `a` stays the first of them. -/
theorem find?_sortBy {α : Type} {le : α → α → Bool} (h : IsWeakOrder le) (xs : List α) (a : α) :
    (sortBy le xs).find? (tied le a) = xs.find? (tied le a) := by
  rw [← List.head?_filter, ← List.head?_filter, sortBy_stable h]

theorem find?_sortViolations (vs : List Violation) (v : Violation) :
    (sortViolations vs).find? (fun w => w.range = v.range) = vs.find? (fun w => w.range = v.range) := by
  have hsame : (fun w : Violation => decide (w.range = v.range)) =
      tied (fun a b => a.range.le b.range) v := by
    funext w
    rw [tied, Bool.eq_iff_iff, decide_eq_true_eq, Bool.and_eq_true]
    constructor
    · intro heq
      rw [heq]
      exact and_self_iff.mpr (or_self_iff.mp (Span.le_isWeakOrder.total v.range v.range))
    · rintro ⟨hle, hge⟩
      exact Span.le_antisymm hge hle
  rw [hsame]
  exact find?_sortBy (Span.le_isWeakOrder.comap Violation.range) vs v

namespace Sorting

open Resolver

variable {vs : List Violation} {orders : OrderMap} {removeDuplicates : Bool} {cs : List Candidate}

/-- In a list that is in order, the findings with the range of the first one stand right behind it. -/
theorem dropSameRange_cons {v : Violation}
    (hvs : (dropSameRange vs).Pairwise fun v w => v.range.Precedes w.range)
    (hv : ∀ w ∈ dropSameRange vs, v.range.le w.range = true) :
    dropSameRange (v :: vs) = v :: (dropSameRange vs).filter (fun w => w.range ≠ v.range) := by
  cases vs with
  | nil => rfl
  | cons w rest =>
    rw [dropSameRange]
    cases hkept : dropSameRange (w :: rest) with
    | nil => rfl
    | cons first others =>
      rw [hkept] at hvs hv
      obtain ⟨hfirst, -⟩ := List.pairwise_cons.mp hvs
      have hothers (hle : v.range = first.range ∨ v.range.Precedes first.range) :
          others.filter (fun w => w.range ≠ v.range) = others := by
        refine List.filter_eq_self.mpr fun u hu => decide_eq_true ?_
        rcases hle with heq | hbefore
        · rw [heq]
          exact (hfirst u hu).ne.symm
        · exact (hbefore.trans (hfirst u hu)).ne.symm
      by_cases hsame : v.range = first.range
      · rw [List.filter_cons_of_neg (by simp [hsame]), hothers (.inl hsame)]
        exact if_pos hsame
      · have hbefore := Span.precedes_of_le (hv first List.mem_cons_self) hsame
        rw [List.filter_cons_of_pos (by simpa using Ne.symm hsame), hothers (.inr hbefore)]
        exact if_neg hsame

theorem dropSameRange_precedes (h : vs.Pairwise fun v w => v.range.le w.range = true) :
    (dropSameRange vs).Pairwise fun v w => v.range.Precedes w.range := by
  induction vs with
  | nil => exact .nil
  | cons v vs ih =>
    obtain ⟨hv, hvs⟩ := List.pairwise_cons.mp h
    have hkept (w : Violation) (hw : w ∈ dropSameRange vs) : v.range.le w.range = true :=
      hv w ((dropSameRange_sublist vs).subset hw)
    rw [dropSameRange_cons (ih hvs) hkept]
    refine List.pairwise_cons.mpr ⟨fun w hw => ?_, (ih hvs).filter _⟩
    obtain ⟨hmem, hne⟩ := List.mem_filter.mp hw
    have hne : w.range ≠ v.range := by simpa using hne
    exact Span.precedes_of_le (hkept w hmem) hne.symm

/-- What is kept is the first finding of each range. -/
theorem mem_dropSameRange (h : vs.Pairwise fun v w => v.range.le w.range = true) {v : Violation} :
    v ∈ dropSameRange vs ↔ vs.find? (fun w => w.range = v.range) = some v := by
  induction vs with
  | nil => simp [dropSameRange]
  | cons w vs ih =>
    obtain ⟨hw, hvs⟩ := List.pairwise_cons.mp h
    rw [dropSameRange_cons (dropSameRange_precedes hvs)
      fun u hu => hw u ((dropSameRange_sublist vs).subset hu), List.find?_cons]
    by_cases hsame : w.range = v.range
    · simp [hsame, eq_comm]
    · have hne : v ≠ w := fun e => hsame (e ▸ rfl)
      simpa [hsame, hne, Ne.symm hsame] using ih hvs

def finding (text : String) (c : Candidate) : Violation :=
  ⟨rule, c.range, c.before ++ text ++ c.after, message⟩

/-- A file's findings are those of the first candidates of each range that change. -/
theorem mem_violations {v : Violation} : v ∈ violations orders removeDuplicates cs ↔
    ∃ c, cs.find? (fun d => d.range = v.range ∧ rebuilt orders removeDuplicates d.body ≠ d.body) = some c ∧
      v = finding (rebuilt orders removeDuplicates c.body) c := by
  have hordered := sortViolations_ordered (cs.filterMap (violation? orders removeDuplicates))
  have hfound : (fun d => (violation? orders removeDuplicates d).any fun w => decide (w.range = v.range)) =
      fun d => decide (d.range = v.range ∧ rebuilt orders removeDuplicates d.body ≠ d.body) := by
    funext d
    by_cases hd : rebuilt orders removeDuplicates d.body = d.body <;> simp [violation?, hd]
  rw [violations, mem_dropSameRange hordered, find?_sortViolations, List.find?_filterMap, hfound,
    Option.bind_eq_some_iff]
  refine exists_congr fun c => and_congr_right fun hc => ?_
  have hsatisfied := List.find?_some hc
  obtain ⟨-, hchanges⟩ := of_decide_eq_true hsatisfied
  simp [violation?, hchanges, finding, eq_comm]

theorem rebuilt_congr {orders' : OrderMap} {text : String}
    (h : ∀ t ∈ (ClassList.parse text).tokens, orders.key? t = orders'.key? t) :
    rebuilt orders removeDuplicates text = rebuilt orders' removeDuplicates text := by
  have hsorted : sortTokens (ClassList.parse text).tokens orders =
      sortTokens (ClassList.parse text).tokens orders' := sortTokens_eq h
  simp only [rebuilt, hsorted]

variable {σ κ : Type} {o : Ranking σ κ} {said : String → Option OrderKey} {source : String}
  {roots : List Node} {options : SortOptions} {r : Resolver κ}

def tokensOf (cs : List Candidate) : List String := cs.flatMap fun c => (ClassList.parse c.body).tokens

/-- A check is one request for all classes of the file. -/
theorem check_eq (o : Ranking σ κ) (source : String) (roots : List Node) (options : SortOptions)
    (r : Resolver κ) (s : σ) :
    let candidates := Candidate.collect source options roots
    let asked := r.resolve o (tokensOf candidates) s
    check o source roots options r s =
      (asked.1.map fun orders => violations orders options.removeDuplicates candidates, asked.2) := by
  intro candidates asked
  unfold check
  dsimp only
  split
  · next hempty =>
    have hnone : candidates = [] := List.isEmpty_iff.mp hempty
    have hasked : asked = (.ok [], r, s) := by
      simp only [asked, hnone]
      rfl
    rw [hasked, hnone]
    rfl
  · split
    · next e r' s' hresolve =>
      have hasked : asked = (.error e, r', s') := hresolve
      rw [hasked]
      rfl
    · next orders r' s' hresolve =>
      have hasked : asked = (.ok orders, r', s') := hresolve
      rw [hasked]
      rfl

/-- What is sent for classes that a resolver is asked for. -/
structure Asks (r : Resolver κ) (tokens : List String) (sent : List Exchange) : Prop where
  single : sent.length ≤ 1
  silent : sent = [] ↔ ∀ t ∈ tokens, r.Knows t
  batch : ∀ x ∈ sent, x.batch ≠ [] ∧
    x.batch.Pairwise (fun a b => tokens.idxOf a < tokens.idxOf b) ∧
    ∀ t, t ∈ x.batch ↔ t ∈ tokens ∧ ¬ r.Knows t

theorem asks_of_missing (r : Resolver κ) (tokens : List String)
    (answer : Except OrderError (List (String × Option OrderKey))) :
    Asks r tokens (if r.missing tokens = [] then [] else [⟨r.missing tokens, answer⟩]) := by
  by_cases hnone : r.missing tokens = []
  · rw [if_pos hnone]
    exact ⟨by simp, by simpa using missing_eq_nil.mp hnone, by simp⟩
  · rw [if_neg hnone]
    refine ⟨by simp, by simpa using mt missing_eq_nil.mpr hnone, ?_⟩
    intro x hx
    rw [List.mem_singleton.mp hx]
    exact ⟨hnone, missing_order r tokens, fun t => mem_missing⟩

structure FindsEach (alone : Candidate → String) (candidates : List Candidate) (found : List Violation) :
    Prop where
  ordered : found.Pairwise fun v w => v.range.Precedes w.range
  first : ∀ v, v ∈ found ↔ ∃ c, candidates.find? (fun d => d.range = v.range ∧ alone d ≠ d.body) = some c ∧
    v = finding (alone c) c

theorem findsEach (orders : OrderMap) (removeDuplicates : Bool) (cs : List Candidate) :
    FindsEach (fun c => rebuilt orders removeDuplicates c.body) cs (violations orders removeDuplicates cs) where
  ordered := dropSameRange_precedes (sortViolations_ordered _)
  first _ := mem_violations

/-- `text` becomes `sorted` when it is sorted by itself: always by the resolver `r`, and by every other
one for its context unless that one fails. -/
structure BecomesAlone (o : Ranking σ κ) (r : Resolver κ) (removeDuplicates : Bool) (text sorted : String) :
    Prop where
  here : ∀ s, sortText o text removeDuplicates r s = (.ok sorted, r, s)
  anywhere : ∀ r₁ s out r₁' s', Reached o r₁ → r₁.context = r.context →
    sortText o text removeDuplicates r₁ s = (.ok out, r₁', s') → out = sorted

/-- The keys for the whole file are those that each of its texts would be sorted by. -/
theorem becomesAlone {c : Candidate} (hcut : c.CutFrom source) {r' : Resolver κ} {tokens : List String}
    {s s' : σ} (hr : Reached o r) (hc : Consistent o r.context said)
    (h : r.resolve o tokens s = (.ok orders, r', s'))
    (hsub : (ClassList.parse c.body).tokens ⊆ tokens) :
    BecomesAlone o r' removeDuplicates c.body (rebuilt orders removeDuplicates c.body) := by
  obtain ⟨hcontext, -, hknown, -⟩ := resolve_knows h
  have hkeys := resolve_reported hr hc h
  have hr' : Reached o r' := by
    have := hr.resolve _ tokens s
    rwa [h] at this
  constructor
  · intro t
    have hagain := resolve_of_known (o := o) (s := t) fun a ha => hknown a (hsub ha)
    have hkeys' := resolve_reported hr' (hcontext ▸ hc) hagain
    have hsame : rebuilt (r'.answers (ClassList.parse c.body).tokens) removeDuplicates c.body =
        rebuilt orders removeDuplicates c.body := rebuilt_congr fun a ha =>
      (hkeys' a ha).trans ((hcontext ▸ hkeys a (hsub ha)).symm)
    simp [sortText, hcut.plain, hcut.sortable, hagain, hsame]
  · intro r₁ t out r₁' t' hr₁ hcontext₁ hsort
    have hsame := hcontext₁.trans hcontext
    rcases sortText_cases hsort with ⟨hskip, -⟩ | ⟨-, -, orders₁, hresolve₁, rfl⟩
    · simp [hcut.plain, hcut.sortable] at hskip
    · have hkeys₁ := resolve_reported hr₁ (hsame ▸ hc) hresolve₁
      exact rebuilt_congr fun a ha => (hkeys₁ a ha).trans ((hsame ▸ hkeys a (hsub ha)).symm)

/-- Checking a file finds, for each range, what sorting the first text there that changes alone gives;
all classes that are not known yet are asked for in one batch, and if that fails, so does the check. -/
theorem check_findsEach (source : String) (roots : List Node) (options : SortOptions) (s : σ)
    (hr : Reached o r) (hc : Consistent o r.context said) :
    let candidates := Candidate.collect source options roots
    let ran := check o source roots options r s
    let sent := (check o.logged source roots options r (s, [])).2.2.2
    (candidates = [] → sent = []) ∧ Asks r (tokensOf candidates) sent ∧
    (∀ x ∈ sent, match x.answer with
      | .error e => ran.1 = .error e ∧ ran.2.1 = r
      | .ok entries => entries.length ≠ x.batch.length →
        ran.1 = .error (.mismatch x.batch.length entries.length) ∧ ran.2.1 = r) ∧
    ((∀ x ∈ sent, x.succeeded = true) → ∃ found alone, ran.1 = .ok found ∧
      FindsEach alone candidates found ∧
      ∀ c ∈ candidates, BecomesAlone o ran.2.1 options.removeDuplicates c.body (alone c)) := by
  intro candidates ran sent
  have hran : ran = _ := check_eq o source roots options r s
  have hsent : sent = if r.missing (tokensOf candidates) = [] then []
      else [⟨r.missing (tokensOf candidates), (o.classOrder r.context (r.missing (tokensOf candidates)) s).1⟩] := by
    simp only [sent, check_eq]
    exact sent_eq o r (tokensOf candidates) s
  have halone (orders : OrderMap) (r' : Resolver κ) (s' : σ)
      (h : r.resolve o (tokensOf candidates) s = (.ok orders, r', s')) (c : Candidate) (hmem : c ∈ candidates) :
      BecomesAlone o r' options.removeDuplicates c.body (rebuilt orders options.removeDuplicates c.body) :=
    becomesAlone (Candidate.collect_cut roots c hmem) hr hc h fun t ht => List.mem_flatMap.mpr ⟨c, hmem, ht⟩
  refine ⟨fun hnone => ?_, hsent ▸ asks_of_missing r (tokensOf candidates) _, ?_⟩
  · rw [hsent, hnone]
    rfl
  · have hout := resolve_outcome o r (tokensOf candidates) s
    rw [hran, hsent]
    generalize hresolve : r.resolve o (tokensOf candidates) s = outcome at hout halone
    cases hout with
    | remembered hnone =>
      simp only [hnone, if_true]
      exact ⟨by simp, fun _ => ⟨_, _, rfl, findsEach _ _ _, halone _ _ _ rfl⟩⟩
    | failed e s' hne hanswer =>
      simp only [hne, if_false, hanswer, List.mem_singleton, forall_eq]
      exact ⟨⟨rfl, trivial⟩, by simp [Exchange.succeeded]⟩
    | mismatch entries s' hne hanswer hlen =>
      simp only [hne, if_false, hanswer, List.mem_singleton, forall_eq]
      exact ⟨fun _ => ⟨rfl, trivial⟩, by simp [Exchange.succeeded, hlen]⟩
    | learned entries s' hne hanswer hlen =>
      simp only [hne, if_false, hanswer, List.mem_singleton, forall_eq]
      exact ⟨fun hother => absurd hlen hother, fun _ => ⟨_, _, rfl, findsEach _ _ _, halone _ _ _ rfl⟩⟩

def doubled : String := "('`b a`')"

def doubledRoots : List Node :=
  [.call ⟨0, 9⟩ (.name "clsx") [.literal ⟨1, 8⟩, .template ⟨2, 7⟩ [⟨⟨2, 7⟩, "b a"⟩] [], .literal ⟨1, 8⟩]]

/-- The classes of the literal have no order, so the finding is that of the template. -/
theorem check_findsEach_doubled :
    let o : Ranking Unit OrderTable := OrderTable.ranking
    let r : Resolver OrderTable := .new alphabet
    let found : List Violation := [⟨rule, ⟨2, 7⟩, "`a b`", message⟩]
    Reached o r ∧ Consistent o r.context alphabet.key? ∧
    (check o doubled doubledRoots .standard r ()).1 = .ok found ∧
    (check o.logged doubled doubledRoots .standard r ((), [])).2.2.2.map (·.batch) = [["`b", "a`", "b", "a"]] ∧
    ∃ alone, FindsEach alone (Candidate.collect doubled .standard doubledRoots) found ∧
      ∀ c ∈ Candidate.collect doubled .standard doubledRoots,
        BecomesAlone o (check o doubled doubledRoots .standard r ()).2.1 true c.body (alone c) := by
  intro o r found
  have hr : Reached o r := .new alphabet
  have hc : Consistent o r.context alphabet.key? := (ranking_steady alphabet).consistent
  obtain ⟨-, -, -, hfinds⟩ := check_findsEach doubled doubledRoots .standard () hr hc
  have hfound : (check o doubled doubledRoots .standard r ()).1 = .ok found := by decide +kernel
  have hsent : (check o.logged doubled doubledRoots .standard r ((), [])).2.2.2 =
      [⟨["`b", "a`", "b", "a"], .ok [("`b", none), ("a`", none), ("b", some 2), ("a", some 1)]⟩] := by rfl
  obtain ⟨_, alone, hresult, heach, halone⟩ := hfinds (by
    rw [hsent]
    simp [Exchange.succeeded])
  obtain rfl : found = _ := Except.ok.inj (hfound.symm.trans hresult)
  exact ⟨hr, hc, hfound, by rw [hsent]; rfl, alone, heach, halone⟩

end Sorting

end ClassSort
