import ClassSort.Proofs.Edit.Splicing
import ClassSort.Proofs.Rule.SortedText
import ClassSort.Proofs.Script.BuiltIn
import ClassSort.Proofs.Source.Documents
import ClassSort.Proofs.Source.Texts

/-!
The fixes of one sort pass do not get in each other's way. The candidates of a file stand apart, so
every fix finds its range untouched: none is skipped, and the output is the source with other
classes in the place of those that were out of order. For this the trees of its texts have to be as the
grammar says; that they lie inside one another is not enough.
-/

namespace ClassSort

open Candidate Sorting

/-- The candidates stand behind `pos` in this order. `output` has new texts in the place of their
bodies and is like `text` everywhere else; `text` begins at `pos`. -/
inductive Rewritten (new : Candidate → List Char) :
    Nat → List Candidate → List Char → List Char → Prop
  | rest {pos : Nat} (text : List Char) : Rewritten new pos [] text text
  | body {pos : Nat} {c : Candidate} {cs : List Candidate} {gap text output : List Char}
      (hpos : pos + byteLength gap = c.range.start + byteLength c.before.toList)
      (hrest : Rewritten new (pos + byteLength gap + byteLength c.body.toList) cs text output) :
      Rewritten new pos (c :: cs) (gap ++ c.body.toList ++ text) (gap ++ new c ++ output)

theorem Rewritten.front {new : Candidate → List Char} {pos : Nat} {cs : List Candidate}
    {text output : List Char} (same : List Char)
    (h : Rewritten new (pos + byteLength same) cs text output) :
    Rewritten new pos cs (same ++ text) (same ++ output) := by
  cases h with
  | rest => exact .rest _
  | @body _ _ _ gap _ _ hpos hrest =>
    have hlength : pos + byteLength (same ++ gap) = pos + byteLength same + byteLength gap := by
      rw [byteLength_append]
      omega
    have hall := Rewritten.body (hlength.trans hpos) (hlength ▸ hrest)
    simpa only [List.append_assoc] using hall

def fixBy (new : Candidate → List Char) (c : Candidate) : Violation :=
  ⟨rule, c.range, c.before ++ String.ofList (new c) ++ c.after, message⟩

theorem splice_rewritten {source : String} (new : Candidate → List Char) {cs : List Candidate}
    {done text : List Char} (hsource : source.toList = done ++ text)
    (hcut : ∀ c ∈ cs, c.CutFrom source) (hbehind : ∀ c ∈ cs, byteLength done ≤ c.range.start)
    (hbefore : cs.Pairwise fun c d => c.range.Before d.range) :
    ∃ output, Fixed.splice source.toList (cs.map (fixBy new)) (byteLength done) text =
        .ok (output, cs.length, 0) ∧ Rewritten new (byteLength done) cs text output := by
  induction cs generalizing done text with
  | nil => exact ⟨text, rfl, .rest text⟩
  | cons c cs ih =>
    obtain ⟨hc, hcs⟩ := List.pairwise_cons.mp hbefore
    have hcutc := hcut c List.mem_cons_self
    obtain ⟨gap, inside, right, rfl, hstart, hstop, hsplice⟩ :=
      Fixed.splice_applied (v := fixBy new c) (cs.map (fixBy new)) hsource hcutc.cuts
        (hbehind c List.mem_cons_self)
    simp only [fixBy] at hstart hstop
    have hsource : source.toList = done ++ gap ++ inside ++ right := by simpa using hsource
    have hslice := sliceChars?_eq_some.mpr
      ⟨done ++ gap, right, hsource, (byteLength_append ..).trans hstart, hstop⟩
    obtain rfl : inside = c.before.toList ++ c.body.toList ++ c.after.toList :=
      Option.some.inj (hslice.symm.trans hcutc.slice)
    have hdone : byteLength (done ++ gap ++ (c.before.toList ++ c.body.toList ++ c.after.toList)) =
        c.range.stop := by
      simp only [byteLength_append] at hstop ⊢
      omega
    obtain ⟨output, hrest, hrewritten⟩ := ih hsource (fun d hd => hcut d (List.mem_cons_of_mem _ hd))
      (fun d hd => hdone ▸ hc d hd) hcs
    rw [hdone] at hrest hrewritten
    refine ⟨gap ++ (c.before.toList ++ new c ++ c.after.toList) ++ output, ?_, ?_⟩
    · rw [List.map_cons, hsplice]
      simp [fixBy, hrest, Except.map]
    · simp only [byteLength_append] at hstop hdone
      have hpos : c.range.stop = byteLength done + byteLength (gap ++ c.before.toList) +
          byteLength c.body.toList + byteLength c.after.toList := by
        rw [byteLength_append]
        omega
      rw [hpos] at hrewritten
      have hstart : byteLength done + byteLength (gap ++ c.before.toList) =
          c.range.start + byteLength c.before.toList := by
        rw [byteLength_append]
        omega
      have hbody := Rewritten.body hstart (hrewritten.front c.after.toList)
      simpa only [List.append_assoc] using hbody

/-- Ranges that are listed in order and overlap nowhere follow one another. -/
theorem before_of_le {c d : Candidate} (hle : c.range.le d.range = true) (hapart : c.Apart d)
    (hd : d.range.start < d.range.stop) : c.range.Before d.range := by
  rcases hapart with hbefore | hbehind
  · exact hbefore
  · simp only [Span.le, Bool.or_eq_true, Bool.and_eq_true, beq_iff_eq, decide_eq_true_eq] at hle
    unfold Span.Before at hbehind
    omega

theorem le_of_before {s t : Span} (h : s.Before t) (hs : s.start < s.stop) : s.le t = true := by
  simp only [Span.le, Bool.or_eq_true, decide_eq_true_eq]
  exact .inl (Nat.lt_of_lt_of_le hs h)

theorem dropSameRange_eq_self {vs : List Violation} (h : vs.Pairwise fun v w => v.range ≠ w.range) :
    dropSameRange vs = vs := by
  induction vs with
  | nil => rfl
  | cons v vs ih =>
    obtain ⟨hv, hvs⟩ := List.pairwise_cons.mp h
    cases vs with
    | nil => rfl
    | cons w vs =>
      rw [dropSameRange, ih hvs]
      exact if_neg (hv w List.mem_cons_self)

def reordered (orders : OrderMap) (removeDuplicates : Bool) (c : Candidate) : List Char :=
  (rebuilt orders removeDuplicates c.body).toList

def violating (orders : OrderMap) (removeDuplicates : Bool) (cs : List Candidate) : List Candidate :=
  cs.filter fun c => rebuilt orders removeDuplicates c.body ≠ c.body

theorem filterMap_violation? (orders : OrderMap) (removeDuplicates : Bool) (cs : List Candidate) :
    cs.filterMap (violation? orders removeDuplicates) =
      (violating orders removeDuplicates cs).map (fixBy (reordered orders removeDuplicates)) := by
  induction cs with
  | nil => rfl
  | cons c cs ih =>
    by_cases hc : rebuilt orders removeDuplicates c.body = c.body
    · simpa [violating, violation?, hc] using ih
    · simpa [violating, violation?, hc, fixBy, reordered] using ih

/-- The findings of candidates that stand apart are their fixes, listed from the front. -/
theorem violations_eq {source : String} {cs : List Candidate} (orders : OrderMap)
    (removeDuplicates : Bool) (hcut : ∀ c ∈ cs, c.CutFrom source) (hapart : cs.Pairwise Apart) :
    ∃ ds : List Candidate, ds.Perm (violating orders removeDuplicates cs) ∧
      (ds.Pairwise fun c d => c.range.Before d.range) ∧
      violations orders removeDuplicates cs = ds.map (fixBy (reordered orders removeDuplicates)) := by
  have hperm : (sortBy (fun a b : Candidate => a.range.le b.range)
      (violating orders removeDuplicates cs)).Perm _ := sortBy_perm _
  have hordered := sortBy_ordered (Span.le_isWeakOrder.comap Candidate.range)
    (violating orders removeDuplicates cs)
  have hsorted : sortViolations (cs.filterMap (violation? orders removeDuplicates)) =
      (sortBy (fun a b => a.range.le b.range) (violating orders removeDuplicates cs)).map
        (fixBy (reordered orders removeDuplicates)) := by
    rw [sortViolations, filterMap_violation?, sortBy_map]
    rfl
  generalize sortBy (fun a b : Candidate => a.range.le b.range)
    (violating orders removeDuplicates cs) = ds at hperm hordered hsorted
  have hcut (d : Candidate) (hd : d ∈ ds) : d.CutFrom source :=
    hcut d (List.mem_of_mem_filter (hperm.mem_iff.mp hd))
  have hapart : ds.Pairwise Apart :=
    (hperm.pairwise_iff fun hcd => hcd.symm).mpr (hapart.sublist List.filter_sublist)
  have hbefore : ds.Pairwise fun c d => c.range.Before d.range :=
    (hordered.and hapart).imp_of_mem fun _ hd h => before_of_le h.1 h.2 (hcut _ hd).forward
  have hdistinct : ds.Pairwise fun c d => c.range ≠ d.range := by
    refine hbefore.imp_of_mem fun hc _ h heq => ?_
    have hforward := (hcut _ hc).forward
    unfold Span.Before at h
    rw [heq] at h hforward
    omega
  refine ⟨ds, hperm, hbefore, ?_⟩
  rw [violations, hsorted]
  exact dropSameRange_eq_self (List.pairwise_map.mpr hdistinct)

/-- Fixes that follow one another are all applied. -/
theorem apply_fixes {source : String} {ds : List Candidate} (new : Candidate → List Char)
    (hcut : ∀ d ∈ ds, d.CutFrom source)
    (hbefore : ds.Pairwise fun c d => c.range.Before d.range) :
    ∃ output, applyViolations source (ds.map (fixBy new)) = .ok ⟨output, ds.length, 0⟩ ∧
      Rewritten new 0 ds source.toList output.toList := by
  obtain ⟨output, hsplice, hrewritten⟩ :=
    splice_rewritten new (List.nil_append _).symm hcut (fun _ _ => Nat.zero_le _) hbefore
  have hlisted : sortViolations (ds.map (fixBy new)) = ds.map (fixBy new) := by
    refine sortBy_eq_self (List.pairwise_map.mpr (hbefore.imp_of_mem fun hc _ h => ?_))
    exact le_of_before h (hcut _ hc).forward
  refine ⟨String.ofList output, ?_, String.toList_ofList ▸ hrewritten⟩
  have hsplice : Fixed.splice source.toList (ds.map (fixBy new)) 0 source.toList =
      .ok (output, ds.length, 0) := hsplice
  rw [applyViolations, hlisted]
  simp [hsplice, bind, Except.bind]

variable {σ κ : Type}

/-- One sort pass over a file fixes every class text that is out of order, and nothing else. -/
theorem check_onePass {o : Ranking σ κ} {g : Script.Grammars} {source : String} {kind : FileKind}
    {options : SortOptions} {r r' : Resolver κ} {s s' : σ} {found : List Violation}
    (hnested : ∀ text ∈ Source.readings source kind,
      Script.Tree.WellNestedFrom 0 (byteLength text.2) (g.read text.1 text.2))
    (hregular : ∀ text ∈ Source.readings source kind, ∀ t ∈ g.read text.1 text.2, t.Regular)
    (h : check o source (Source.roots g source kind) options r s = (.ok found, r', s')) :
    let candidates := collect source options (Source.roots g source kind)
    (candidates.Pairwise Apart ∧ ∀ c ∈ candidates, c.range.start < c.range.stop) ∧
    ∃ orders output changed,
      (candidates = [] ∨ r.resolve o (candidates.flatMap fun c => (ClassList.parse c.body).tokens) s =
        (.ok orders, r', s')) ∧
      changed.Perm (violating orders options.removeDuplicates candidates) ∧
      found = changed.map (fixBy (reordered orders options.removeDuplicates)) ∧
      applyViolations source found = .ok ⟨output, found.length, 0⟩ ∧
      Rewritten (reordered orders options.removeDuplicates) 0 changed source.toList output.toList := by
  intro candidates
  have horderly : ∀ text ∈ Source.readings source kind, g.Orderly text := fun text htext =>
    Script.Tree.row_of_regular (hnested text htext) (hregular text htext) (.inl rfl)
  have hapart : candidates.Pairwise Apart := Source.roots_apart options horderly
  have hcut : ∀ c ∈ candidates, c.CutFrom source := collect_cut _
  refine ⟨⟨hapart, fun c hc => (hcut c hc).forward⟩, ?_⟩
  obtain ⟨orders, hresolved, hfound⟩ : ∃ orders,
      (candidates = [] ∨ r.resolve o (candidates.flatMap fun c => (ClassList.parse c.body).tokens) s =
        (.ok orders, r', s')) ∧
      found = violations orders options.removeDuplicates candidates := by
    unfold check at h
    dsimp only at h
    split at h
    · next hempty =>
      have hnone : candidates = [] := List.isEmpty_iff.mp hempty
      cases h
      exact ⟨[], .inl hnone, by rw [hnone]; rfl⟩
    · split at h
      · cases h
      · next orders r₂ s₂ hresolve =>
        cases h
        exact ⟨orders, .inr hresolve, rfl⟩
  obtain ⟨changed, hperm, hbefore, hfixes⟩ :=
    violations_eq orders options.removeDuplicates hcut hapart
  have hmem (c : Candidate) (hc : c ∈ changed) : c.CutFrom source :=
    hcut c (List.mem_of_mem_filter (hperm.mem_iff.mp hc))
  obtain ⟨output, happly, hrewritten⟩ :=
    apply_fixes (reordered orders options.removeDuplicates) hmem hbefore
  rw [← hfixes, ← hfound] at happly
  have hlength : found.length = changed.length := by rw [hfound, hfixes, List.length_map]
  exact ⟨orders, output, changed, hresolved, hperm, hfound.trans hfixes, hlength ▸ happly,
    hrewritten⟩

def nestedCalls : String := "clsx(\"b a\", clsx(\"b  a\"))"

theorem check_onePass_nestedCalls : ∃ found r', check OrderTable.ranking nestedCalls
      (Source.roots Script.builtIn nestedCalls .javaScript) .standard (.new alphabet) () = (.ok found, r', ()) ∧
    found.length = 2 ∧ ∃ output, applyViolations nestedCalls found = .ok ⟨output, 2, 0⟩ := by
  have hcollect : collect nestedCalls .standard (Source.roots Script.builtIn nestedCalls .javaScript) =
      [⟨⟨6, 9⟩, "", "b a", ""⟩, ⟨⟨18, 22⟩, "", "b  a", ""⟩] := by decide +kernel
  have h : check OrderTable.ranking nestedCalls (Source.roots Script.builtIn nestedCalls .javaScript) .standard
      (.new alphabet) () = (.ok [⟨rule, ⟨6, 9⟩, "a b", message⟩, ⟨rule, ⟨18, 22⟩, "a  b", message⟩],
        ⟨alphabet, [("b", some 2), ("a", some 1)]⟩, ()) := by
    unfold check
    rw [hcollect]
    rfl
  obtain ⟨-, -, output, -, -, -, -, happly, -⟩ := check_onePass
    (fun text _ => Script.builtIn_wellNested text.1 text.2) (fun text _ => Script.builtIn_regular text.1 text.2) h
  exact ⟨_, _, h, rfl, output, happly⟩

/-- A script and the trees that a library makes of it. Of every other text it makes none. -/
structure Misreading where
  source : String
  options : SortOptions
  trees : List Script.Tree

namespace Misreading

def grammars (m : Misreading) : Script.Grammars where
  refusal _ := none
  trees? _ text := some (if text = m.source.toList then m.trees else [])

def roots (m : Misreading) : List Node := Source.roots m.grammars m.source .javaScript

def candidates (m : Misreading) : List Candidate := collect m.source m.options m.roots

theorem wellNested (m : Misreading)
    (h : Script.Tree.WellNestedFrom 0 (byteLength m.source.toList) m.trees) (dialect : Script.Dialect)
    (text : List Char) : Script.Tree.WellNestedFrom 0 (byteLength text) (m.grammars.read dialect text) := by
  rw [Script.Grammars.read, grammars]
  dsimp only
  rw [Option.getD_some]
  split
  · next htext => rwa [htext]
  · rw [Script.Tree.WellNestedFrom]
    exact Nat.zero_le _

open Script.Tree

/-- A substitution without delimiters. -/
def bareSubstitution : Misreading where
  source := "clsx(`b a'b a'`)"
  options := .standard
  trees := [node .expressionStatement ⟨0, 16⟩ [node .call ⟨0, 16⟩ [node .identifier ⟨0, 4⟩ [],
    node .arguments ⟨4, 16⟩ [node .template ⟨5, 15⟩
      [node .substitution ⟨9, 14⟩ [node .string ⟨9, 14⟩ []]]]]]]

/-- A variable declared among the arguments of a call. -/
def givenVariable : Misreading where
  source := "clsx(x = 'b a')"
  options := { SortOptions.standard with declarations := ⟨[], [], ["x"]⟩ }
  trees := [node .expressionStatement ⟨0, 15⟩ [node .call ⟨0, 15⟩ [node .identifier ⟨0, 4⟩ [],
    node .arguments ⟨4, 15⟩ [node (.declarator true) ⟨5, 14⟩
      [node .identifier ⟨5, 6⟩ [], node .string ⟨9, 14⟩ []]]]]]

/-- A call in the text of a string. -/
def quotedCall : Misreading where
  source := "clsx(\"b clsx('b a')\")"
  options := .standard
  trees := [node .expressionStatement ⟨0, 21⟩ [node .call ⟨0, 21⟩ [node .identifier ⟨0, 4⟩ [],
    node .arguments ⟨4, 21⟩ [node .string ⟨5, 20⟩ [node .call ⟨8, 19⟩ [node .identifier ⟨8, 12⟩ [],
      node .arguments ⟨12, 19⟩ [node .string ⟨13, 18⟩ []]]]]]]]

/-- A call that ends with another one. -/
def bareArgument : Misreading where
  source := "clsx(clsx`b a`)"
  options := { SortOptions.standard with tags := ["clsx"] }
  trees := [node .expressionStatement ⟨0, 15⟩ [node .call ⟨0, 15⟩ [node .identifier ⟨0, 4⟩ [],
    node .call ⟨5, 14⟩ [node .identifier ⟨5, 9⟩ [], node .template ⟨9, 14⟩ []]]]]

def Overlaps (m : Misreading) : Prop :=
  (∀ dialect text, WellNestedFrom 0 (byteLength text) (m.grammars.read dialect text)) ∧
    ¬ m.candidates.Pairwise Apart

theorem overlaps_of_pair {m : Misreading} {c d : Candidate}
    (hnested : WellNestedFrom 0 (byteLength m.source.toList) m.trees) (hfound : m.candidates = [c, d])
    (hcd : ¬ c.Apart d) : m.Overlaps :=
  ⟨m.wellNested hnested, by simpa [hfound] using hcd⟩

/-- No rule of the grammar can be dropped. The trees of each of these libraries always lie inside one
another and break one rule only, but class texts overlap. Of the first one's findings only one can be fixed. -/
theorem misread_overlap : bareSubstitution.Overlaps ∧ givenVariable.Overlaps ∧ quotedCall.Overlaps ∧
    bareArgument.Overlaps ∧ ∃ found r',
      check OrderTable.ranking bareSubstitution.source bareSubstitution.roots .standard (.new alphabet) () =
        (.ok found, r', ()) ∧
      found.length = 2 ∧
      applyViolations bareSubstitution.source found = .ok ⟨"clsx(`a b'b a'`)", 1, 1⟩ := by
  have hbare : bareSubstitution.candidates = [⟨⟨10, 13⟩, "", "b a", ""⟩, ⟨⟨5, 11⟩, "`", "b a", "'b"⟩] := by
    decide +kernel
  have hgiven : givenVariable.candidates = [⟨⟨10, 13⟩, "", "b a", ""⟩, ⟨⟨10, 13⟩, "", "b a", ""⟩] := by
    decide +kernel
  have hquoted : quotedCall.candidates = [⟨⟨6, 19⟩, "", "b clsx('b a')", ""⟩, ⟨⟨14, 17⟩, "", "b a", ""⟩] := by
    decide +kernel
  have hargument : bareArgument.candidates = [⟨⟨9, 14⟩, "`", "b a", "`"⟩, ⟨⟨9, 14⟩, "`", "b a", "`"⟩] := by
    decide +kernel
  have h : check OrderTable.ranking bareSubstitution.source bareSubstitution.roots .standard
      (.new alphabet) () = (.ok [⟨rule, ⟨5, 11⟩, "`a b'b", message⟩, ⟨rule, ⟨10, 13⟩, "a b", message⟩],
        ⟨alphabet, [("b", some 2), ("a", some 1)]⟩, ()) := by
    unfold check
    rw [show collect bareSubstitution.source .standard bareSubstitution.roots = _ from hbare]
    rfl
  refine ⟨overlaps_of_pair ?_ hbare ?_, overlaps_of_pair ?_ hgiven ?_,
    overlaps_of_pair ?_ hquoted ?_, overlaps_of_pair ?_ hargument ?_, _, _, h, rfl, by decide +kernel⟩
  all_goals first
    | simp only [bareSubstitution, givenVariable, quotedCall, bareArgument, WellNestedFrom, WellNested]
      decide +kernel
    | simp [Candidate.Apart, Span.Disjoint, Span.Before]

end Misreading

end ClassSort
