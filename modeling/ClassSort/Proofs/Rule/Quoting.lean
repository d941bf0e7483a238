import ClassSort.Proofs.Rule.SortedText
import ClassSort.Proofs.Script.Quoted
import ClassSort.Proofs.Source.Readings
import ClassSort.Proofs.Source.Texts
import ClassSort.Script.Parse

/-!
Class texts between the quotes of a string. A backslash at the end of a class escapes the separator
behind it, and only so may the separators hold a line break. Sorting moves the classes and leaves
the separators, so the escape and the line break can be parted, and an escape can come to stand in
front of the closing quote.
-/

namespace ClassSort

open Script Script.Behind

namespace ClassList

def escapesNext : List Char → Bool
  | '\\' :: _ :: cs => escapesNext cs
  | ['\\'] => true
  | _ :: cs => escapesNext cs
  | [] => false

def hasBreak (cs : List Char) : Bool := cs.any fun c => c = '\n' || c = '\r'

variable {quote : Char}

theorem ne_of_not_separator {c : Char} (h : isSeparator c = false) : c ≠ '\n' ∧ c ≠ '\r' := by
  constructor
  · rintro rfl
    exact absurd h (by decide)
  · rintro rfl
    exact absurd h (by decide)

theorem past_class {t : List Char} {final : Behind} (ht : ∀ c ∈ t, isSeparator c = false)
    (h : past quote .plain t = some final) : final = if escapesNext t then .backslash else .plain := by
  fun_induction escapesNext t with
  | case1 c cs ih =>
    rw [past, next_plain_backslash, Option.bind_some, past, next_backslash, Option.bind_some,
      if_neg (ne_of_not_separator (ht c (by simp))).2] at h
    exact ih (fun d hd => ht d (by simp [hd])) h
  | case2 => exact (Option.some.inj h).symm
  | case3 c cs hpair hlone ih =>
    have hslash : c ≠ '\\' := by
      rintro rfl
      cases cs with
      | nil => exact hlone rfl rfl
      | cons d ds => exact hpair d ds rfl rfl
    rw [past, next_plain hslash] at h
    split at h
    · cases h
    · exact ih (fun d hd => ht d (by simp [hd])) h
  | case4 => exact (Option.some.inj h).symm

theorem past_separator {c : Char} (hc : isSeparator c = true) (hquote : isSeparator quote = false) :
    next quote .plain c = if c = '\n' ∨ c = '\r' then none else some .plain := by
  have hslash : c ≠ '\\' := by
    rintro rfl
    exact absurd hc (by decide)
  have hne : c ≠ quote := by
    rintro rfl
    rw [hquote] at hc
    cases hc
  rw [next_plain hslash]
  simp [hne]

/-- Without a backslash in front separators are read to the end unless one breaks the line. -/
theorem past_separators {u : List Char} (hu : ∀ c ∈ u, isSeparator c = true) (hquote : isSeparator quote = false) :
    past quote .plain u = if hasBreak u then none else some .plain := by
  induction u with
  | nil => rfl
  | cons c u ih =>
    rw [past, past_separator (hu c List.mem_cons_self) hquote]
    by_cases hc : c = '\n' ∨ c = '\r'
    · rw [if_pos hc]
      simp [hasBreak, hc]
    · rw [if_neg hc, Option.bind_some, ih fun d hd => hu d (List.mem_cons_of_mem _ hd)]
      simp [hasBreak, hc]

theorem next_ne_backslash {c : Char} (hc : isSeparator c = true) {behind final : Behind}
    (h : next quote behind c = some final) : final ≠ .backslash := by
  have hslash : c ≠ '\\' := by
    rintro rfl
    exact absurd hc (by decide)
  have hplain : next quote .plain c = some final → final ≠ .backslash := by
    intro h
    rw [next_plain hslash] at h
    split at h
    · cases h
    · cases h
      decide
  cases behind with
  | plain => exact hplain h
  | backslash =>
    cases h
    split <;> decide
  | carriage =>
    by_cases hfeed : c = '\n'
    · subst hfeed
      cases h
      decide
    · rw [next_carriage hfeed] at h
      exact hplain h

theorem past_ne_backslash {u : List Char} (hu : ∀ c ∈ u, isSeparator c = true) {behind final : Behind}
    (h : past quote behind u = some final) (hne : u ≠ [] ∨ behind ≠ .backslash) : final ≠ .backslash := by
  induction u generalizing behind with
  | nil =>
    cases h
    exact hne.resolve_left (by simp)
  | cons c u ih =>
    rw [past] at h
    obtain ⟨middle, hnext, hpast⟩ := Option.bind_eq_some_iff.mp h
    exact ih (fun d hd => hu d (List.mem_cons_of_mem _ hd)) hpast
      (.inr (next_ne_backslash (hu c List.mem_cons_self) hnext))

theorem past_escaped {u : List Char} (hu : ∀ c ∈ u, isSeparator c = true) (hquote : isSeparator quote = false)
    (hbreak : hasBreak u = false) : (past quote .backslash u).isSome = true := by
  cases u with
  | nil => rfl
  | cons c u =>
    simp only [hasBreak, List.any_cons, Bool.or_eq_false_iff, decide_eq_false_iff_not] at hbreak
    rw [past, next_backslash, if_neg hbreak.1.2, Option.bind_some,
      past_separators (fun d hd => hu d (List.mem_cons_of_mem _ hd)) hquote, if_neg]
    · rfl
    · simpa [hasBreak] using hbreak.2

def Joins (quote : Char) (t u : List Char) : Prop :=
  (past quote .plain t).isSome = true ∧ (past quote .backslash u).isSome = true ∧
    (hasBreak u = true → escapesNext t = true)

variable {t u ds : List Char}

theorem joins_iff (ht : ∀ c ∈ t, isSeparator c = false) (hu : ∀ c ∈ u, isSeparator c = true)
    (hquote : isSeparator quote = false) : (past quote .plain (t ++ u)).isSome = true ↔ Joins quote t u := by
  rw [past_append, Joins]
  cases hpast : past quote .plain t with
  | none => simp
  | some final =>
    obtain rfl := past_class ht hpast
    by_cases hesc : escapesNext t = true
    · simp [hesc]
    · simp only [hesc, Option.bind_some, Option.isSome_some, true_and]
      rw [if_neg (by simp), past_separators hu hquote]
      by_cases hbreak : hasBreak u = true
      · simp [hbreak]
      · rw [Bool.not_eq_true] at hbreak
        simp [hbreak, past_escaped hu hquote hbreak]

theorem isQuotable_joined (ht : ∀ c ∈ t, isSeparator c = false) (hu : ∀ c ∈ u, isSeparator c = true)
    (hne : u ≠ []) (hquote : isSeparator quote = false) (hds : ∀ d ∈ ds.head?, isSeparator d = false) :
    IsQuotable quote (t ++ u ++ ds) ↔ Joins quote t u ∧ IsQuotable quote ds := by
  rw [← joins_iff ht hu hquote, isQuotable_iff_past, isQuotable_iff_past, past_append _ (t ++ u)]
  cases hpast : past quote .plain (t ++ u) with
  | none => simp
  | some middle =>
    have hmiddle : middle ≠ .backslash := by
      rw [past_append] at hpast
      obtain ⟨_, _, hpast⟩ := Option.bind_eq_some_iff.mp hpast
      exact past_ne_backslash hu hpast (.inl hne)
    simp only [Option.bind_some, Option.isSome_some, true_and]
    cases middle with
    | plain => rfl
    | backslash => exact absurd rfl hmiddle
    | carriage =>
      cases ds with
      | nil => exact ⟨fun _ => ⟨.plain, rfl, by decide⟩, fun _ => ⟨.carriage, rfl, by decide⟩⟩
      | cons d ds => rw [past_carriage (ne_of_not_separator (hds d rfl)).1]

theorem isQuotable_class (ht : ∀ c ∈ t, isSeparator c = false) : IsQuotable quote t ↔
    (past quote .plain t).isSome = true ∧ escapesNext t = false := by
  rw [isQuotable_iff_past]
  cases hpast : past quote .plain t with
  | none => simp
  | some final =>
    obtain rfl := past_class ht hpast
    by_cases hesc : escapesNext t = true
    · simp [hesc]
    · simp [hesc]

theorem isQuotable_lead (hu : ∀ c ∈ u, isSeparator c = true) (hquote : isSeparator quote = false) :
    IsQuotable quote (u ++ ds) ↔ hasBreak u = false ∧ IsQuotable quote ds := by
  rw [isQuotable_iff_past, isQuotable_iff_past, past_append, past_separators hu hquote]
  by_cases hbreak : hasBreak u = true
  · simp [hbreak]
  · simp [hbreak]

namespace Layout

def TiedRest (t : String) : List (String × String) → String → Prop
  | [], trail => if trail = "" then escapesNext t.toList = false else
      hasBreak trail.toList = true → escapesNext t.toList = true
  | (run, next) :: rest, trail =>
      (hasBreak run.toList = true → escapesNext t.toList = true) ∧ TiedRest next rest trail

/-- Every line break behind a class is escaped by it, and no class escapes the end. -/
def Tied (l : Layout) : Prop := TiedRest l.first l.rest l.trail

/-- The parts can stand in a string, if they are put together in the right way. -/
structure Fits (quote : Char) (l : Layout) : Prop where
  classes : ∀ t ∈ l.classes, (past quote .plain t.toList).isSome = true
  runs : ∀ u ∈ l.runs, (past quote .backslash u.toList).isSome = true
  lead : hasBreak l.lead.toList = false

theorem toList_ne {s : String} (h : s ≠ "") : s.toList ≠ [] := fun e => h (String.toList_eq_nil_iff.mp e)

theorem mem_ending {s u : String} (h : u ∈ ending s) : u = s := by
  unfold ending at h
  split at h
  · cases h
  · exact List.mem_singleton.mp h

theorem isQuotable_rest {t : String} {rest : List (String × String)} {trail : String} (ht : IsClass t)
    (hrest : ∀ p ∈ rest, IsSeparators p.1 ∧ IsClass p.2) (htrail : ∀ c ∈ trail.toList, isSeparator c = true)
    (hquote : isSeparator quote = false) : IsQuotable quote (t ++ restText rest ++ trail).toList ↔
      (∀ s ∈ t :: rest.map (·.2), (past quote .plain s.toList).isSome = true) ∧
      (∀ u ∈ rest.map (·.1) ++ ending trail, (past quote .backslash u.toList).isSome = true) ∧
      TiedRest t rest trail := by
  induction rest generalizing t with
  | nil =>
    by_cases hempty : trail = ""
    · simp only [restText, hempty, String.append_empty, isQuotable_class ht.none]
      simp [ending, TiedRest]
    · have hjoined : IsQuotable quote (t.toList ++ trail.toList ++ []) ↔ _ :=
        isQuotable_joined ht.none htrail (toList_ne hempty) hquote (by simp)
      rw [List.append_nil] at hjoined
      rw [restText, String.append_empty, String.toList_append, hjoined]
      simp [Joins, IsQuotable.nil, ending, TiedRest, hempty]
  | cons p rest ih =>
    obtain ⟨run, next⟩ := p
    obtain ⟨hrun, hnext⟩ := hrest _ List.mem_cons_self
    have ih := ih hnext fun q hq => hrest q (List.mem_cons_of_mem _ hq)
    have hhead : ∀ d ∈ (next ++ restText rest ++ trail).toList.head?, isSeparator d = false := by
      intro d hd
      rw [String.append_assoc, String.toList_append] at hd
      simpa using head_append hnext.ne hnext.none _ d hd
    have hjoined := isQuotable_joined ht.none hrun.all hrun.ne hquote hhead
    have htext : (t ++ restText ((run, next) :: rest) ++ trail).toList =
        t.toList ++ run.toList ++ (next ++ restText rest ++ trail).toList := by
      simp [restText]
    rw [htext, hjoined, ih]
    simp only [Joins, TiedRest, List.map_cons, List.cons_append, List.forall_mem_cons]
    grind

theorem isQuotable_text {l : Layout} (h : l.Proper) (hquote : isSeparator quote = false) :
    IsQuotable quote l.text.toList ↔ l.Fits quote ∧ l.Tied := by
  have htext : l.text.toList = l.lead.toList ++ (l.first ++ restText l.rest ++ l.trail).toList := by
    simp [text]
  rw [htext, isQuotable_lead h.lead hquote, isQuotable_rest h.first h.rest h.trail hquote]
  constructor
  · rintro ⟨hlead, hclasses, hruns, htied⟩
    refine ⟨⟨hclasses, ?_, hlead⟩, htied⟩
    intro u hu
    rw [runs, List.append_assoc] at hu
    rcases List.mem_append.mp hu with hu | hu
    · exact mem_ending hu ▸ past_escaped h.lead hquote hlead
    · exact hruns u hu
  · rintro ⟨⟨hclasses, hruns, hlead⟩, htied⟩
    refine ⟨hlead, hclasses, ?_, htied⟩
    intro u hu
    apply hruns
    rw [runs, List.append_assoc]
    exact List.mem_append_right _ hu

theorem collapse_subset (l : Layout) : l.collapse.classes ⊆ l.classes ∧ l.collapse.runs ⊆ l.runs := by
  have hsub := collapseRest_subset l.first l.rest
  constructor
  · exact List.cons_subset_cons _ (List.map_subset _ hsub)
  · intro u hu
    simp only [runs, collapse, List.mem_append] at hu ⊢
    rcases hu with (hu | hu) | hu
    · exact .inl (.inl hu)
    · exact .inl (.inr (List.map_subset _ hsub hu))
    · exact .inr hu

theorem rebuilt_subset {l : Layout} {sorted : List String} (h : sorted.length = l.classes.length)
    (removeDuplicates : Bool) : (l.rebuilt sorted removeDuplicates).lead = l.lead ∧
      (l.rebuilt sorted removeDuplicates).classes ⊆ sorted ∧
      (l.rebuilt sorted removeDuplicates).runs ⊆ l.runs := by
  have hcollapse := (l.arrange sorted).collapse_subset
  rw [arrange_classes h, arrange_runs h] at hcollapse
  unfold rebuilt
  cases removeDuplicates with
  | false => simp [arrange_classes h, arrange_runs h]
  | true => exact ⟨arrange_lead l sorted, hcollapse⟩

theorem Fits.of_subset {l m : Layout} (h : l.Fits quote) (hlead : m.lead = l.lead)
    (hclasses : m.classes ⊆ l.classes) (hruns : m.runs ⊆ l.runs) : m.Fits quote where
  classes t ht := h.classes t (hclasses ht)
  runs u hu := h.runs u (hruns hu)
  lead := hlead ▸ h.lead

theorem tiedRest_iff {t : String} {rest : List (String × String)} {trail : String}
    (h : ∀ s ∈ t :: rest.map (·.2), escapesNext s.toList = false) :
    TiedRest t rest trail ↔ ∀ u ∈ rest.map (·.1) ++ ending trail, hasBreak u.toList = false := by
  induction rest generalizing t with
  | nil =>
    have ht := h t List.mem_cons_self
    by_cases htrail : trail = ""
    · simp [TiedRest, ending, htrail, ht]
    · simp [TiedRest, ending, htrail, ht]
  | cons p rest ih =>
    have ht := h t List.mem_cons_self
    have ih := ih fun s hs => h s (List.mem_cons_of_mem _ hs)
    rw [TiedRest, ih, ht]
    simp

/-- Where no class ends in a backslash no run may break the line. -/
theorem tied_iff {l : Layout} (h : ∀ t ∈ l.classes, escapesNext t.toList = false)
    (hlead : hasBreak l.lead.toList = false) : l.Tied ↔ ∀ u ∈ l.runs, hasBreak u.toList = false := by
  rw [Tied, tiedRest_iff h, runs, List.append_assoc]
  constructor
  · intro hrest u hu
    rcases List.mem_append.mp hu with hu | hu
    · exact mem_ending hu ▸ hlead
    · exact hrest u hu
  · intro hall u hu
    exact hall u (List.mem_append_right _ hu)

end Layout

end ClassList

theorem Candidate.mem_ofLiteral {source : String} {span : Span} {c : Candidate} (h : c ∈ ofLiteral source span) :
    c.range = span.inner ∧ c.before = "" ∧ c.after = "" := by
  unfold ofLiteral ofText at h
  split at h
  · split at h
    · cases mem_keep h
      exact ⟨rfl, rfl, rfl⟩
    · cases h
  · cases h

namespace Sorting

open ClassList

theorem sortTokens_perm (orders : OrderMap) (ts : List String) : (sortTokens ts orders).Perm ts :=
  sortBy_perm ts

variable {orders : OrderMap} {removeDuplicates : Bool}

theorem rebuilt_layout {l : Layout} (h : l.Proper) : rebuilt orders removeDuplicates l.text =
    (l.rebuilt (sortTokens l.classes orders) removeDuplicates).text := by
  rw [rebuilt, Layout.parse_text h]
  exact Layout.rebuild_parts (sortTokens_perm orders l.classes).length_eq removeDuplicates

section Quoted

variable {quote : Char} {l : Layout} (hl : l.Proper) (hquote : isSeparator quote = false)
  (hbody : IsQuotable quote l.text.toList)
include hl hquote hbody

theorem rebuilt_isQuotable_iff : IsQuotable quote (rebuilt orders removeDuplicates l.text).toList ↔
    (l.rebuilt (sortTokens l.classes orders) removeDuplicates).Tied := by
  have hperm := sortTokens_perm orders l.classes
  obtain ⟨hlead, hclasses, hruns⟩ := Layout.rebuilt_subset hperm.length_eq removeDuplicates
  obtain ⟨hfits, -⟩ := (Layout.isQuotable_text hl hquote).mp hbody
  have hsorted := hl.rebuilt (fun t ht => hl.classes t (hperm.mem_iff.mp ht)) removeDuplicates
  rw [rebuilt_layout hl, Layout.isQuotable_text hsorted hquote]
  constructor
  · exact fun h => h.2
  · intro htied
    exact ⟨hfits.of_subset hlead (fun t ht => hperm.mem_iff.mp (hclasses ht)) hruns, htied⟩

theorem rebuilt_isQuotable (hnone : ∀ t ∈ l.classes, escapesNext t.toList = false) :
    IsQuotable quote (rebuilt orders removeDuplicates l.text).toList := by
  have hperm := sortTokens_perm orders l.classes
  obtain ⟨hlead, hclasses, hruns⟩ := Layout.rebuilt_subset hperm.length_eq removeDuplicates
  obtain ⟨hfits, htied⟩ := (Layout.isQuotable_text hl hquote).mp hbody
  rw [Layout.tied_iff hnone hfits.lead] at htied
  rw [rebuilt_isQuotable_iff hl hquote hbody]
  rw [Layout.tied_iff (fun t ht => hnone t (hperm.mem_iff.mp (hclasses ht))) (hlead ▸ hfits.lead)]
  intro u hu
  exact htied u (hruns hu)

end Quoted

/-- A sorted string is a string again exactly when every line break is still escaped and no class escapes
the quote; the string then ends where it did. It is one if no class ends in a backslash. -/
theorem sorted_isQuotable_iff {quote : Char} (hquote : isSeparator quote = false) (hslash : quote ≠ '\\')
    {source : String} {span : Span} {c : Candidate} (hc : c ∈ Candidate.ofLiteral source span)
    (hbody : IsQuotable quote c.body.toList) {v : Violation}
    (hv : violation? orders removeDuplicates c = some v) :
    v.range = span.inner ∧ slice? source span.inner = some c.body ∧ ∃ l : Layout, l.Proper ∧ l.text = c.body ∧
      let sorted := l.rebuilt (sortTokens l.classes orders) removeDuplicates
      v.replacement = sorted.text ∧
      (IsQuotable quote v.replacement.toList ↔ sorted.Tied) ∧
      (IsQuotable quote v.replacement.toList → ∀ rest, quotedLength quote
        (v.replacement.toList ++ quote :: rest) = some (v.replacement.toList.length + 1)) ∧
      ((∀ t ∈ l.classes, escapesNext t.toList = false) → IsQuotable quote v.replacement.toList) := by
  have hcut := Candidate.ofLiteral_cut span c hc
  obtain ⟨hrange, hbefore, hafter⟩ := Candidate.mem_ofLiteral hc
  have hslice : slice? source span.inner = some c.body := by
    have htext := hcut.text
    rw [hrange, hbefore, hafter] at htext
    simpa using htext
  obtain ⟨l, hl, htext⟩ := Layout.exists_text (exists_of_sortable hcut.sortable)
  unfold violation? at hv
  dsimp only at hv
  split at hv
  · cases hv
  · cases hv
    rw [← htext] at hbody
    have hreplacement : c.before ++ rebuilt orders removeDuplicates c.body ++ c.after =
        rebuilt orders removeDuplicates l.text := by
      rw [hbefore, hafter, htext]
      simp
    refine ⟨hrange, hslice, l, hl, htext, ?_⟩
    intro sorted
    simp only [hreplacement]
    refine ⟨rebuilt_layout hl, rebuilt_isQuotable_iff hl hquote hbody, ?_, rebuilt_isQuotable hl hquote hbody⟩
    intro hquotable rest
    refine hquotable.quotedLength hslash ?_ rest
    rintro rfl
    cases hquote

def continuedCall : String := "clsx(\"a \\\nb\")"

def continuedBody : Candidate := ⟨⟨6, 11⟩, "", "a \\\nb", ""⟩

theorem continuedBody_found : (Source.roots Script.builtIn continuedCall .javaScript).any (fun
      | .call _ _ [.literal span] => span == ⟨5, 12⟩
      | _ => false) = true ∧
    continuedBody ∈ Candidate.ofLiteral continuedCall ⟨5, 12⟩ ∧
    IsQuotable '"' continuedBody.body.toList := by
  decide +kernel

theorem continuedBody_sorted : violation? [("a", some 1), ("b", some 2)] true continuedBody =
    some ⟨rule, ⟨6, 11⟩, "\\ a\nb", message⟩ := by
  decide +kernel

/-- The literal breaks off at the line break. -/
theorem continuedBody_breaks : (Source.roots Script.builtIn continuedCall .javaScript).any (fun
      | .call _ _ [.literal span] => span == ⟨5, 12⟩
      | _ => false) = true ∧
    continuedBody ∈ Candidate.ofLiteral continuedCall ⟨5, 12⟩ ∧
    IsQuotable '"' continuedBody.body.toList ∧
    ∃ v, violation? [("a", some 1), ("b", some 2)] true continuedBody = some v ∧
      ¬ IsQuotable '"' v.replacement.toList ∧ quotedLength '"' (v.replacement.toList ++ ['"', ')']) = none := by
  obtain ⟨hroot, hfound, hbody⟩ := continuedBody_found
  refine ⟨hroot, hfound, hbody, _, continuedBody_sorted, ?_, ?_⟩
  · decide +kernel
  · decide +kernel

theorem continuedBody_not_tied : isSeparator '"' = false ∧ '"' ≠ '\\' ∧ ∃ l : Layout,
    l.text = continuedBody.body ∧
      ¬ (l.rebuilt (sortTokens l.classes [("a", some 1), ("b", some 2)]) true).Tied := by
  obtain ⟨-, hfound, hbody⟩ := continuedBody_found
  obtain ⟨-, -, l, -, htext, -, hiff, -, -⟩ :=
    sorted_isQuotable_iff (by decide) (by decide) hfound hbody continuedBody_sorted
  refine ⟨by decide, by decide, l, htext, ?_⟩
  intro htied
  exact absurd (hiff.mpr htied) (by decide +kernel)

end Sorting

end ClassSort
