import ClassSort.Proofs.Source.Placed
import ClassSort.Proofs.Text.Cuts

/-!
A candidate is a copy of what stands in its range of the source: the classes, and the delimiters
around them. Every candidate has several classes, so none of them is empty.
-/

namespace ClassSort

/-- `before` is what stands in front of the first `raw` in `text`, and `after` what stands behind it. -/
structure FirstCut (raw text before after : List Char) : Prop where
  split : text = before ++ raw ++ after
  first : ∀ before' after', text = before' ++ raw ++ after' → before.length ≤ before'.length

variable {raw text before after : List Char}

theorem FirstCut.unique {before' after' : List Char} (h : FirstCut raw text before after)
    (h' : FirstCut raw text before' after') : before = before' ∧ after = after' := by
  have hlength := Nat.le_antisymm (h.first _ _ h'.split) (h'.first _ _ h.split)
  have hsplit := h.split.symm.trans h'.split
  rw [List.append_assoc, List.append_assoc] at hsplit
  obtain ⟨hbefore, hrest⟩ := List.append_inj hsplit hlength
  exact ⟨hbefore, List.append_cancel_left hrest⟩

theorem splitAround_firstCut (h : splitAround raw text = some (before, after)) :
    FirstCut raw text before after := by
  induction text generalizing before with
  | nil =>
    rw [splitAround] at h
    split at h
    · next hraw =>
      cases h
      exact ⟨by simp [List.isEmpty_iff.mp hraw], by simp⟩
    · cases h
  | cons c cs ih =>
    rw [splitAround] at h
    split at h
    · next hfront =>
      cases h
      obtain ⟨rest, hrest⟩ := List.isPrefixOf_iff_prefix.mp hfront
      exact ⟨by simp [← hrest], by simp⟩
    · next hfront =>
      obtain ⟨⟨b, a⟩, hsplit, hcut⟩ := Option.map_eq_some_iff.mp h
      cases hcut
      obtain ⟨hrest, hfirst⟩ := ih hsplit
      refine ⟨by rw [hrest]; rfl, fun before' after' htext => ?_⟩
      cases before' with
      | nil => exact absurd (List.isPrefixOf_iff_prefix.mpr ⟨after', htext.symm⟩) hfront
      | cons d before' => exact Nat.succ_le_succ (hfirst _ _ (List.cons.inj htext).2)

theorem exists_splitAround (h : text = before ++ raw ++ after) :
    ∃ before' after', splitAround raw text = some (before', after') := by
  induction text generalizing before with
  | nil =>
    obtain ⟨rfl, rfl, rfl⟩ : before = [] ∧ raw = [] ∧ after = [] := by simpa using h.symm
    exact ⟨[], [], rfl⟩
  | cons c cs ih =>
    rw [splitAround]
    split
    · exact ⟨_, _, rfl⟩
    · next hfront =>
      cases before with
      | nil => exact absurd (List.isPrefixOf_iff_prefix.mpr ⟨after, h.symm⟩) hfront
      | cons d before =>
        obtain ⟨-, h⟩ := List.cons.inj h
        obtain ⟨before', after', hsplit⟩ := ih h
        exact ⟨c :: before', after', by rw [hsplit]; rfl⟩

theorem splitAround_eq_some_iff :
    splitAround raw text = some (before, after) ↔ FirstCut raw text before after := by
  refine ⟨splitAround_firstCut, fun h => ?_⟩
  obtain ⟨before', after', hsplit⟩ := exists_splitAround h.split
  obtain ⟨rfl, rfl⟩ := h.unique (splitAround_firstCut hsplit)
  exact hsplit

theorem splitTemplate?_eq_some_iff {text raw before body after : String} :
    splitTemplate? text raw = some (before, body, after) ↔
      raw ≠ "" ∧ body = raw ∧ FirstCut raw.toList text.toList before.toList after.toList := by
  unfold splitTemplate?
  by_cases hraw : raw = ""
  · simp [hraw]
  · rw [if_neg (by simpa using hraw), Option.map_eq_some_iff]
    constructor
    · rintro ⟨⟨b, a⟩, hsplit, hcut⟩
      cases hcut
      simpa [hraw] using splitAround_eq_some_iff.mp hsplit
    · rintro ⟨-, rfl, hcut⟩
      exact ⟨_, splitAround_eq_some_iff.mpr hcut, by simp⟩

theorem splitTemplate?_eq_some {text raw before body after : String}
    (h : splitTemplate? text raw = some (before, body, after)) :
    body = raw ∧ text = before ++ body ++ after := by
  obtain ⟨-, rfl, hcut⟩ := splitTemplate?_eq_some_iff.mp h
  exact ⟨rfl, String.toList_inj.mp (by simpa using hcut.split)⟩

namespace Candidate

variable {source : String} {options : SortOptions} {c d : Candidate}

structure CutFrom (source : String) (c : Candidate) : Prop where
  text : slice? source c.range = some (c.before ++ c.body ++ c.after)
  sortable : (ClassList.parse c.body).isSortable = true
  plain : hasPlaceholder c.body = false

theorem keep_cut (h : slice? source c.range = some (c.before ++ c.body ++ c.after)) :
    ∀ d ∈ keep c, d.CutFrom source := by
  intro d hd
  unfold keep at hd
  split at hd
  · simp at hd
  · next hkept =>
    obtain rfl := List.mem_singleton.mp hd
    simp only [Bool.or_eq_true, not_or, Bool.not_eq_true, Bool.not_eq_false'] at hkept
    exact ⟨h, hkept.2, hkept.1⟩

theorem ofText_cut (range : Span) : ∀ c ∈ ofText source range, c.CutFrom source := by
  unfold ofText
  split
  · next body hslice => exact keep_cut (by simpa using hslice)
  · simp

theorem ofChunk_cut (chunk : Chunk) : ∀ c ∈ ofChunk source chunk, c.CutFrom source := by
  unfold ofChunk
  split
  · next before body after hsplit =>
    obtain ⟨text, hslice, hsplit⟩ := Option.bind_eq_some_iff.mp hsplit
    obtain ⟨-, rfl⟩ := splitTemplate?_eq_some hsplit
    exact keep_cut hslice
  · simp

theorem ofLiteral_cut (span : Span) : ∀ c ∈ ofLiteral source span, c.CutFrom source := by
  unfold ofLiteral
  split
  · exact ofText_cut span.inner
  · simp

mutual

theorem visit_cut : ∀ n : Node, ∀ c ∈ visit source options n, c.CutFrom source
  | .array _ elements => by
    rw [visit]
    exact visitAll_cut elements
  | .binary _ left right => by
    rw [visit]
    exact List.forall_mem_append.mpr ⟨visit_cut left, visit_cut right⟩
  | .logical _ _ right => by
    rw [visit]
    exact visit_cut right
  | .conditional _ _ consequent alternate => by
    rw [visit]
    exact List.forall_mem_append.mpr ⟨visit_cut consequent, visit_cut alternate⟩
  | .literal span => by
    rw [visit]
    exact ofLiteral_cut span
  | .object _ properties => by
    rw [visit]
    exact visitProperties_cut properties
  | .template _ chunks expressions => by
    rw [visit]
    refine List.forall_mem_append.mpr ⟨visitAll_cut expressions, fun c hc => ?_⟩
    obtain ⟨chunk, -, hc⟩ := List.mem_flatMap.mp hc
    exact ofChunk_cut chunk c hc
  | .declarator _ (some name) (some init) => by
    rw [visit]
    split
    · exact visit_cut init
    · simp
  | .declarator _ none _ | .declarator _ _ none | .identifier .. | .tagged .. | .call ..
  | .classAttribute .. | .other _ => by simp [visit]

theorem visitAll_cut : ∀ ns : List Node, ∀ c ∈ visitAll source options ns, c.CutFrom source
  | [] => by simp [visitAll]
  | n :: ns => by
    rw [visitAll]
    exact List.forall_mem_append.mpr ⟨visit_cut n, visitAll_cut ns⟩

theorem visitProperties_cut :
    ∀ ps : List Property, ∀ c ∈ visitProperties source options ps, c.CutFrom source
  | [] => by simp [visitProperties]
  | .entry key value :: ps => by
    rw [visitProperties]
    refine List.forall_mem_append.mpr ⟨?_, visitProperties_cut ps⟩
    split
    · simp
    · exact List.forall_mem_append.mpr ⟨visit_cut key, visit_cut value⟩
  | .spread _ :: ps => by
    rw [visitProperties]
    exact visitProperties_cut ps

end

theorem ofCall_cut (called : Callee) (arguments : List Node) :
    ∀ c ∈ ofCall source options called arguments, c.CutFrom source := by
  unfold ofCall
  split
  · exact visitAll_cut arguments
  · simp

theorem ofPart_cut (p : AttributePart) : ∀ c ∈ ofPart source options p, c.CutFrom source := by
  unfold ofPart
  split
  · exact ofText_cut _
  · exact ofCall_cut _ _
  · exact visit_cut _

theorem ofRoot_cut (n : Node) : ∀ c ∈ ofRoot source options n, c.CutFrom source := by
  unfold ofRoot
  split
  · exact ofCall_cut _ _
  · split
    · exact visit_cut _
    · simp
  · exact visit_cut _
  · intro c hc
    obtain ⟨p, -, hc⟩ := List.mem_flatMap.mp hc
    exact ofPart_cut p c hc
  · simp

theorem collect_cut (roots : List Node) : ∀ c ∈ collect source options roots, c.CutFrom source := by
  intro c hc
  obtain ⟨root, -, hc⟩ := List.mem_flatMap.mp hc
  exact ofRoot_cut root c hc

theorem CutFrom.nonempty (h : c.CutFrom source) : c.body.toList ≠ [] := by
  intro hbody
  have hsortable := h.sortable
  simp [ClassList.isSortable, ClassList.parse, hbody, ClassList.pieces] at hsortable

/-- Two classes and what parts them take three bytes. -/
theorem CutFrom.size (h : c.CutFrom source) : 3 ≤ byteLength c.body.toList := by
  have hsortable := h.sortable
  rw [ClassList.isSortable, ClassList.parse] at hsortable
  generalize c.body.toList = cs at hsortable ⊢
  rcases cs with _ | ⟨a, _ | ⟨b, _ | ⟨d, rest⟩⟩⟩
  · simp [ClassList.pieces] at hsortable
  · cases ha : ClassList.isSeparator a <;> simp [ClassList.pieces, ClassList.isRun, ha] at hsortable
  · cases ha : ClassList.isSeparator a <;> cases hb : ClassList.isSeparator b <;>
      simp [ClassList.pieces, ClassList.isRun, ha, hb] at hsortable
  · have hfirst := a.utf8Size_pos
    have hsecond := b.utf8Size_pos
    have hthird := d.utf8Size_pos
    simp only [byteLength]
    omega

theorem CutFrom.cuts (h : c.CutFrom source) : c.range.Cuts source.toList := Span.cuts_of_text h.text

/-- A candidate as a piece of the characters of the source. -/
theorem CutFrom.slice (h : c.CutFrom source) : sliceChars? source.toList c.range =
    some (c.before.toList ++ c.body.toList ++ c.after.toList) := by
  obtain ⟨inside, hslice, htext⟩ := Option.map_eq_some_iff.mp h.text
  obtain rfl : inside = c.before.toList ++ c.body.toList ++ c.after.toList := by
    simpa using congrArg String.toList htext
  exact hslice

theorem CutFrom.pieces (h : c.CutFrom source) : ∃ left right,
    source.toList = left ++ (c.before.toList ++ c.body.toList ++ c.after.toList) ++ right ∧
      byteLength left = c.range.start ∧ c.range.start +
        byteLength (c.before.toList ++ c.body.toList ++ c.after.toList) = c.range.stop :=
  sliceChars?_eq_some.mp h.slice

theorem CutFrom.forward (h : c.CutFrom source) : c.range.start < c.range.stop := by
  obtain ⟨left, right, -, -, hstop⟩ := h.pieces
  obtain ⟨x, xs, hbody⟩ := List.exists_cons_of_ne_nil h.nonempty
  have hx := x.utf8Size_pos
  simp only [byteLength_append, hbody, byteLength] at hstop
  omega

/-- No candidate fits between two positions so close together. -/
theorem Placed.none_of_narrow {a b : Nat} {cs : List Candidate} (h : Placed a b cs) (hcut : ∀ c ∈ cs, c.CutFrom source)
    (hnarrow : b < a + 3) : cs = [] := by
  refine List.eq_nil_iff_forall_not_mem.mpr fun c hc => ?_
  obtain ⟨hstart, hstop⟩ := h.within c hc
  obtain ⟨left, right, -, -, hrange⟩ := (hcut c hc).pieces
  have hsize := (hcut c hc).size
  simp only [byteLength_append] at hrange
  omega

end Candidate

end ClassSort
