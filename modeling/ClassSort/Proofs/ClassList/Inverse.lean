import ClassSort.Proofs.ClassList.Repeats
import Mathlib.Algebra.GroupWithZero.Nat

/-!
Taking apart and putting together undo each other. Every text with a class falls apart into a list
that is well formed and whose text it is, every well-formed list is what its text falls apart into,
and classes in another order leave the runs of a text where they are and its length as it is.
-/

namespace ClassSort.ClassList

def text (list : ClassList) : String := assemble list.tokens list.runs list.head list.tail

/-- There are classes, and a run in each place that has one: between two classes, and at an end that
the list says has separators. -/
structure WellFormed (list : ClassList) : Prop where
  tokens_ne : list.tokens ≠ []
  tokens : ∀ t ∈ list.tokens, IsClass t
  runs : ∀ r ∈ list.runs, IsSeparators r
  count : list.runs.length = list.tokens.length - 1 + list.head.toNat + list.tail.toNat

theorem IsSeparators.ne_empty {s : String} (h : IsSeparators s) : s ≠ "" :=
  fun hs => h.ne (String.toList_eq_nil_iff.mpr hs)

namespace Layout

theorem text_parts (l : Layout) : l.parts.text = l.text := assemble_parts l

theorem length_ending (s : String) : (ending s).length = (decide (s ≠ "")).toNat := by
  by_cases hs : s = "" <;> simp [ending, hs]

theorem isSeparators_ending {s r : String} (h : ∀ c ∈ s.toList, isSeparator c = true)
    (hr : r ∈ ending s) : IsSeparators r := by
  by_cases hs : s = ""
  · simp [ending, hs] at hr
  · obtain rfl : r = s := by simpa [ending, hs] using hr
    exact ⟨fun e => hs (String.toList_eq_nil_iff.mp e), h⟩

/-- The parts of a text that has classes. -/
theorem Proper.wellFormed {l : Layout} (h : l.Proper) : l.parts.WellFormed where
  tokens_ne := by simp [parts, Layout.classes]
  tokens := h.classes
  runs r hr := by
    simp only [parts, Layout.runs, List.mem_append] at hr
    rcases hr with (hr | hr) | hr
    · exact isSeparators_ending h.lead hr
    · obtain ⟨p, hp, rfl⟩ := List.mem_map.mp hr
      exact (h.rest p hp).1
    · exact isSeparators_ending h.trail hr
  count := by
    simp only [parts, Layout.runs, Layout.classes, List.length_append, List.length_cons,
      List.length_map, length_ending]
    omega

/-- A run that is there is no empty text, so the text of an end tells whether it has a run. -/
theorem ending_getD {run : Option String} (h : ∀ r ∈ run, IsSeparators r) :
    ending (run.getD "") = run.toList ∧ decide (run.getD "" ≠ "") = run.isSome ∧
      ∀ c ∈ (run.getD "").toList, isSeparator c = true := by
  cases run with
  | none => exact ⟨rfl, rfl, by simp⟩
  | some r =>
    have hr := h r rfl
    exact ⟨by simp [ending, hr.ne_empty], by simp [hr.ne_empty], hr.all⟩

/-- A well-formed list is the parts of a text with classes. -/
theorem exists_parts {list : ClassList} (h : list.WellFormed) : ∃ l : Layout, l.Proper ∧ l.parts = list := by
  obtain ⟨tokens, runs, head, tail⟩ := list
  obtain ⟨hne, htokens, hruns, hcount⟩ := h
  obtain ⟨t, rfl, rfl, rfl, rfl⟩ := Threading.exists_of_inStep ⟨hne, hcount⟩
  simp only [Threading.runs, List.mem_append, Option.mem_toList] at hruns
  obtain ⟨hlead, hhead, hleadAll⟩ := ending_getD fun r hr => hruns r (.inl (.inl hr))
  obtain ⟨htrail, htail, htrailAll⟩ := ending_getD fun r hr => hruns r (.inr hr)
  refine ⟨⟨t.lead.getD "", t.first, t.rest, t.trail.getD ""⟩,
    ⟨hleadAll, htokens t.first List.mem_cons_self, ?_, htrailAll⟩, ?_⟩
  · intro piece hpiece
    exact ⟨hruns piece.1 (.inl (.inr (List.mem_map_of_mem hpiece))),
      htokens piece.2 (List.mem_cons_of_mem _ (List.mem_map_of_mem hpiece))⟩
  · simp only [parts, classes, Layout.runs, hlead, htrail, hhead, htail]
    rfl

theorem utf8ByteSize_rest (rest : List (String × String)) :
    (restText rest).utf8ByteSize =
      (rest.map (·.2.utf8ByteSize)).sum + (rest.map (·.1.utf8ByteSize)).sum := by
  induction rest with
  | nil => rfl
  | cons p rest ih =>
    simp only [restText, String.utf8ByteSize_append, ih, List.map_cons, List.sum_cons]
    omega

theorem utf8ByteSize_ending (s : String) :
    ((ending s).map String.utf8ByteSize).sum = s.utf8ByteSize := by
  by_cases hs : s = "" <;> simp [ending, hs]

/-- The bytes of a text are those of its classes and its runs. -/
theorem utf8ByteSize_text (l : Layout) : l.text.utf8ByteSize =
    (l.classes.map String.utf8ByteSize).sum + (l.runs.map String.utf8ByteSize).sum := by
  simp only [text, classes, runs, String.utf8ByteSize_append, utf8ByteSize_rest, List.map_append,
    List.sum_append, utf8ByteSize_ending, List.map_cons, List.sum_cons, List.map_map, Function.comp_def]
  omega

/-- Other classes in the places of a text are all that changes. -/
theorem arrange_parts {l : Layout} {sorted : List String} (h : sorted.length = l.classes.length) :
    (l.arrange sorted).parts = { l.parts with tokens := sorted } := by
  simp only [parts, arrange_classes h, arrange_runs h, arrange_lead, arrange_trail]

theorem utf8ByteSize_arrange {l : Layout} {sorted : List String} (h : sorted.Perm l.classes) :
    (l.arrange sorted).text.utf8ByteSize = l.text.utf8ByteSize := by
  rw [utf8ByteSize_text, utf8ByteSize_text, arrange_classes h.length_eq, arrange_runs h.length_eq,
    (h.map String.utf8ByteSize).sum_nat]

end Layout

theorem exists_layout {s : String} (h : (parse s).tokens ≠ []) :
    ∃ l : Layout, l.Proper ∧ l.text = s ∧ parse s = l.parts := by
  obtain ⟨l, hl, rfl⟩ := Layout.exists_text (exists_of_tokens_ne h)
  exact ⟨l, hl, rfl, Layout.parse_text hl⟩

/-- Texts with classes and well-formed lists are the same thing in two forms. Classes in another
order have the runs and the length of the text. -/
theorem parse_text_inverse :
    (∀ s, (parse s).tokens ≠ [] → (parse s).WellFormed ∧ (parse s).text = s) ∧
    (∀ list : ClassList, list.WellFormed → parse list.text = list) ∧
    ∀ s sorted, (parse s).tokens ≠ [] → sorted.Perm (parse s).tokens →
      parse ((parse s).rebuild sorted false) = { parse s with tokens := sorted } ∧
      ((parse s).rebuild sorted false).utf8ByteSize = s.utf8ByteSize := by
  refine ⟨?_, ?_, ?_⟩
  · intro s hs
    obtain ⟨l, hl, htext, hparse⟩ := exists_layout hs
    rw [hparse, Layout.text_parts]
    exact ⟨hl.wellFormed, htext⟩
  · intro list hlist
    obtain ⟨l, hl, rfl⟩ := Layout.exists_parts hlist
    rw [Layout.text_parts, Layout.parse_text hl]
  · intro s sorted hs hperm
    obtain ⟨l, hl, rfl, hparse⟩ := exists_layout hs
    rw [hparse] at hperm ⊢
    have hclasses : ∀ t ∈ sorted, IsClass t := fun t ht => hl.classes t (hperm.mem_iff.mp ht)
    have hrebuild : l.parts.rebuild sorted false = (l.arrange sorted).text :=
      Layout.rebuild_parts hperm.length_eq false
    rw [hrebuild, Layout.parse_text (hl.arrange hclasses), Layout.arrange_parts hperm.length_eq]
    exact ⟨rfl, Layout.utf8ByteSize_arrange hperm⟩

/-- Both ends, runs of several separators, and classes of unequal length. -/
theorem parse_text_inverse_accented :
    let s := "\tgrün  a\r\nb-2 "
    parse (parse s).text = parse s ∧ (parse s).text = s ∧
      parse ((parse s).rebuild ["a", "b-2", "grün"] false) =
        ⟨["a", "b-2", "grün"], ["\t", "  ", "\r\n", " "], true, true⟩ ∧
      ((parse s).rebuild ["a", "b-2", "grün"] false).utf8ByteSize = s.utf8ByteSize := by
  intro s
  obtain ⟨hforward, hback, horder⟩ := parse_text_inverse
  have hne : (parse s).tokens ≠ [] := by decide
  have hperm : ["a", "b-2", "grün"].Perm (parse s).tokens := by decide
  have hparse : { parse s with tokens := ["a", "b-2", "grün"] } =
      (⟨["a", "b-2", "grün"], ["\t", "  ", "\r\n", " "], true, true⟩ : ClassList) := by decide
  obtain ⟨hwell, htext⟩ := hforward s hne
  exact ⟨hback _ hwell, htext, (horder s _ hne hperm).1.trans hparse, (horder s _ hne hperm).2⟩

end ClassSort.ClassList
