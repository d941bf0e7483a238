import ClassSort.Order.Table
import ClassSort.Proofs.ClassList.Repeats
import ClassSort.Proofs.Order.Resolving
import ClassSort.Proofs.Order.StableSort
import ClassSort.Rule.Sorting

/-!
Sorting a class text once is enough. With a context that ranks every class the same way each time,
the classes of a sorted text are the stable sort of the classes before, without neighbouring
repeats where asked, and a sorted text comes back byte for byte from the same resolver and from
any other one for the context.
-/

namespace ClassSort

open ClassList

theorem sortBy_congr {α : Type} {le le' : α → α → Bool} {xs : List α}
    (h : ∀ a ∈ xs, ∀ b ∈ xs, le a b = le' a b) : sortBy le xs = sortBy le' xs := by
  have insert_congr : ∀ x ys, (∀ y ∈ ys, le x y = le' x y) →
      insertBy le x ys = insertBy le' x ys := by
    intro x ys
    induction ys with
    | nil => exact fun _ => rfl
    | cons y ys ih =>
      intro hy
      rw [insertBy, insertBy, hy y List.mem_cons_self,
        ih fun z hz => hy z (List.mem_cons_of_mem _ hz)]
  induction xs with
  | nil => rfl
  | cons x xs ih =>
    have ih := ih fun a ha b hb => h a (List.mem_cons_of_mem _ ha) b (List.mem_cons_of_mem _ hb)
    rw [sortBy, sortBy, ← ih]
    refine insert_congr x _ fun y hy => ?_
    exact h x List.mem_cons_self y (List.mem_cons_of_mem _ ((sortBy_perm xs).mem_iff.mp hy))

namespace ClassList

/-- The classes of a sorted text. -/
def settled (key : String → Option OrderKey) (removeDuplicates : Bool) (ts : List String) :
    List String :=
  let sorted := sortBy (OrderKey.mayPrecede key) ts
  if removeDuplicates then sorted.destutter (· ≠ ·) else sorted

variable {key : String → Option OrderKey} {removeDuplicates : Bool} {ts : List String}

theorem exists_of_sortable {text : String} (h : (parse text).isSortable = true) :
    ∃ c ∈ text.toList, isSeparator c = false := by
  refine exists_of_tokens_ne fun hnone => ?_
  simp [isSortable, hnone] at h

theorem settled_sublist :
    (settled key removeDuplicates ts).Sublist (sortBy (OrderKey.mayPrecede key) ts) := by
  unfold settled
  split
  · exact List.destutter_sublist _ _
  · exact List.Sublist.refl _

theorem mem_of_mem_settled {t : String} (h : t ∈ settled key removeDuplicates ts) : t ∈ ts :=
  (sortBy_perm ts).mem_iff.mp (settled_sublist.mem h)

theorem sortBy_settled : sortBy (OrderKey.mayPrecede key) (settled key removeDuplicates ts) =
    settled key removeDuplicates ts :=
  sortBy_eq_self ((sortBy_ordered (OrderKey.mayPrecede_isWeakOrder key) ts).sublist settled_sublist)

/-- A layout with its own classes put into its places. -/
theorem Layout.arrange_self (l : Layout) : l.arrange l.classes = l := by
  have : (l.rest.map (·.1)).zip (l.rest.map (·.2)) = l.rest := by
    rw [List.zip_map']
    simp
  simp [arrange, classes, this]

theorem Layout.collapse_self {l : Layout} (h : l.classes.IsChain (· ≠ ·)) : l.collapse = l := by
  obtain ⟨lead, first, rest, trail⟩ := l
  simp only [collapse, mk.injEq, true_and, and_true]
  induction rest generalizing first with
  | nil => rfl
  | cons p rest ih =>
    obtain ⟨run, token⟩ := p
    obtain ⟨hne, hrest⟩ := List.isChain_cons_cons.mp h
    rw [collapseRest, if_neg hne, ih _ hrest]

/-- Sorting the classes of a text again changes nothing. -/
theorem Layout.rebuilt_settled {l : Layout} (h : l.classes = settled key removeDuplicates ts) :
    l.rebuilt (sortBy (OrderKey.mayPrecede key) l.classes) removeDuplicates = l := by
  have hsort : sortBy (OrderKey.mayPrecede key) l.classes = l.classes := by rw [h, sortBy_settled]
  rw [hsort, rebuilt, arrange_self]
  split
  · next hrd =>
    apply collapse_self
    rw [h, settled, if_pos hrd]
    exact List.isChain_destutter _ _
  · rfl

end ClassList

namespace Sorting

open Resolver

variable {σ κ : Type} {o : Ranking σ κ} {said : String → Option OrderKey}
variable {orders : OrderMap} {key : String → Option OrderKey} {removeDuplicates : Bool}

theorem violation?_eq_some {c : Candidate} {v : Violation}
    (h : violation? orders removeDuplicates c = some v) : rebuilt orders removeDuplicates c.body ≠ c.body ∧
      v = ⟨rule, c.range, c.before ++ rebuilt orders removeDuplicates c.body ++ c.after, message⟩ := by
  unfold violation? at h
  dsimp only at h
  split at h
  · cases h
  · next hchanged => exact ⟨hchanged, (Option.some.inj h).symm⟩

theorem violation?_range {c : Candidate} {v : Violation}
    (h : violation? orders removeDuplicates c = some v) : v.range = c.range := by
  rw [(violation?_eq_some h).2]

theorem sortTokens_eq {ts : List String} (h : ∀ t ∈ ts, orders.key? t = key t) :
    sortTokens ts orders = sortBy (OrderKey.mayPrecede key) ts := by
  apply sortBy_congr
  intro a ha b hb
  rw [OrderKey.mayPrecede, h a ha, h b hb]

/-- A sorted text has the layout of the text, with its classes settled. -/
theorem rebuilt_text {l : Layout} (hl : l.Proper) (h : ∀ t ∈ l.classes, orders.key? t = key t) :
    rebuilt orders removeDuplicates l.text =
      (l.rebuilt (sortBy (OrderKey.mayPrecede key) l.classes) removeDuplicates).text := by
  rw [rebuilt, Layout.parse_text hl]
  simp only [Layout.parts, sortTokens_eq h]
  exact Layout.rebuild_parts (sortBy_perm l.classes).length_eq removeDuplicates

theorem exists_settled (removeDuplicates : Bool) {text : String} (hs : (parse text).isSortable = true)
    (h : ∀ t ∈ (parse text).tokens, orders.key? t = key t) :
    ∃ m : Layout, m.Proper ∧ rebuilt orders removeDuplicates text = m.text ∧
      m.classes = settled key removeDuplicates (parse text).tokens := by
  obtain ⟨l, hl, rfl⟩ := Layout.exists_text (exists_of_sortable hs)
  have htokens : (parse l.text).tokens = l.classes := by rw [Layout.parse_text hl]; rfl
  rw [htokens] at h ⊢
  have hperm : (sortBy (OrderKey.mayPrecede key) l.classes).Perm l.classes := sortBy_perm _
  have hproper := hl.rebuilt (fun t ht => hl.classes t (hperm.mem_iff.mp ht)) removeDuplicates
  refine ⟨_, hproper, rebuilt_text hl h, ?_⟩
  rw [Layout.rebuilt_classes hperm.length_eq, settled, distinctNeighbours_eq_destutter]

/-- The orders of a settled text put its classes where they stand. -/
theorem rebuilt_of_settled {m : Layout} (hm : m.Proper) {ts : List String}
    (hts : m.classes = settled key removeDuplicates ts)
    (h : ∀ t ∈ m.classes, orders.key? t = key t) :
    rebuilt orders removeDuplicates m.text = m.text := by
  rw [rebuilt_text hm h, Layout.rebuilt_settled hts]

/-- What a successful request reports for the classes that were asked for. -/
theorem resolve_reported {r r' : Resolver κ} {tokens : List String} {s s' : σ}
    (hr : Reached o r) (hc : Consistent o r.context said)
    (h : r.resolve o tokens s = (.ok orders, r', s')) :
    ∀ t ∈ tokens, orders.key? t = reported o r.context said t := by
  intro t ht
  obtain ⟨hcontext, rfl, hknown, -⟩ := resolve_knows h
  have hfaithful : Faithful o said r' := by
    have : Faithful o said (r.resolve o tokens s).2.1 := hc.resolve (hc.reached hr)
    rwa [h] at this
  rw [key?_answers ht, key?_of_known hfaithful (hknown t ht), hcontext]

/-- What sorting a text can come to. -/
theorem sortText_cases {r r' : Resolver κ} {text out : String} {s s' : σ}
    (h : sortText o text removeDuplicates r s = (.ok out, r', s')) :
    ((hasPlaceholder text = true ∨ (parse text).isSortable = false) ∧
      out = text ∧ r' = r ∧ s' = s) ∨
    (hasPlaceholder text = false ∧ (parse text).isSortable = true ∧
      ∃ orders, r.resolve o (parse text).tokens s = (.ok orders, r', s') ∧
        out = rebuilt orders removeDuplicates text) := by
  simp only [sortText] at h
  split at h
  · next hskip =>
    simp only [Prod.mk.injEq, Except.ok.injEq] at h
    obtain ⟨rfl, rfl, rfl⟩ := h
    exact .inl ⟨by simpa using hskip, rfl, rfl, rfl⟩
  · next hskip =>
    simp only [Bool.or_eq_true, not_or, Bool.not_eq_true, Bool.not_eq_false'] at hskip
    split at h
    · simp at h
    · next orders r₁ s₁ hresolve =>
      simp only [Prod.mk.injEq, Except.ok.injEq] at h
      obtain ⟨rfl, rfl, rfl⟩ := h
      exact .inr ⟨hskip.1, hskip.2, orders, hresolve, rfl⟩

/-- A sorted text is one that no resolver for the context changes any more, and its classes are the
stable sort of the classes of the text. -/
theorem sortText_idempotent {r r' : Resolver κ} {text out : String} {s s' : σ}
    (hr : Reached o r) (hc : Steady o r.context said)
    (h : sortText o text removeDuplicates r s = (.ok out, r', s')) :
    (∀ t, sortText o out removeDuplicates r' t = (.ok out, r', t)) ∧
    (∀ r₂ t out₂ r₂' t', Reached o r₂ → r₂.context = r.context →
      sortText o out removeDuplicates r₂ t = (.ok out₂, r₂', t') → out₂ = out) ∧
    (hasPlaceholder text = false → 2 ≤ (parse text).tokens.length →
      ∃ sorted, IsStableSort (OrderKey.mayPrecede (reported o r.context said))
          (parse text).tokens sorted ∧
        (parse out).tokens = if removeDuplicates then sorted.destutter (· ≠ ·) else sorted) := by
  rcases sortText_cases h with ⟨hskip, rfl, rfl, -⟩ | ⟨hplain, hsortable, orders, hresolve, rfl⟩
  · -- a text that is left alone is left alone every time
    have hagain : ∀ (r₂ : Resolver κ) t,
        sortText o out removeDuplicates r₂ t = (.ok out, r₂, t) := by
      intro r₂ t
      simp only [sortText]
      rw [if_pos (by simpa using hskip)]
    refine ⟨fun t => hagain _ t, ?_, ?_⟩
    · intro r₂ t out₂ r₂' t' _ _ h₂
      rw [hagain] at h₂
      simp only [Prod.mk.injEq, Except.ok.injEq] at h₂
      exact h₂.1.symm
    · intro hplain htwo
      rcases hskip with hskip | hskip
      · simp [hskip] at hplain
      · simp only [isSortable, decide_eq_false_iff_not] at hskip
        omega
  · have hkeys := resolve_reported hr hc.consistent hresolve
    obtain ⟨hcontext, -, hknown, -⟩ := resolve_knows hresolve
    obtain ⟨m, hm, htext, hclasses⟩ := exists_settled removeDuplicates hsortable hkeys
    rw [htext]
    have htokens : (parse m.text).tokens = m.classes := by rw [Layout.parse_text hm]; rfl
    refine ⟨?_, ?_, ?_⟩
    · intro t
      have hall : ∀ c ∈ (parse m.text).tokens, r'.Knows c := by
        intro c hc
        rw [htokens, hclasses] at hc
        exact hknown c (mem_of_mem_settled hc)
      simp only [sortText]
      split
      · rfl
      · have hsettled := resolve_of_known (o := o) (s := t) hall
        have hr' : Reached o r' := by
          have := hr.resolve _ (parse text).tokens s
          rwa [hresolve] at this
        have hkeys' := resolve_reported hr' (hcontext ▸ hc.consistent) hsettled
        rw [htokens] at hkeys'
        rw [hsettled]
        simp only [htokens, rebuilt_of_settled hm (hcontext ▸ hclasses) hkeys']
    · intro r₂ t out₂ r₂' t' hr₂ hcontext₂ h₂
      rcases sortText_cases h₂ with ⟨-, rfl, -, -⟩ | ⟨-, -, orders₂, hresolve₂, rfl⟩
      · rfl
      · have hkeys₂ := resolve_reported hr₂ (hcontext₂ ▸ hc.consistent) hresolve₂
        rw [htokens, hcontext₂] at hkeys₂
        exact rebuilt_of_settled hm hclasses hkeys₂
    · intro _ _
      refine ⟨_, sortBy_isStableSort (OrderKey.mayPrecede_isWeakOrder _) _, ?_⟩
      rw [htokens, hclasses, settled]

theorem ranking_steady (t : OrderTable) : Steady (OrderTable.ranking (σ := σ)) t t.key? := by
  intro batch s entries s' h
  simp only [OrderTable.ranking, Prod.mk.injEq, Except.ok.injEq] at h
  rw [← h.1, List.map_map]
  rfl

def alphabet : OrderTable := ⟨"", none, [], [("a", 1), ("b", 2)]⟩

theorem sortText_idempotent_alphabet :
    ∃ r', sortText OrderTable.ranking "b a  b" true (.new alphabet) () = (.ok "a b", r', ()) ∧
      ∀ t : Unit, sortText OrderTable.ranking "a b" true r' t = (.ok "a b", r', t) := by
  have h : sortText OrderTable.ranking "b a  b" true (.new alphabet) () =
      (.ok "a b", ⟨alphabet, [("b", some 2), ("a", some 1)]⟩, ()) := by rfl
  exact ⟨_, h, (sortText_idempotent (.new alphabet) (ranking_steady alphabet) h).1⟩

end Sorting

end ClassSort
