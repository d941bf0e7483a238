import ClassSort.Proofs.Markup.Standing
import ClassSort.Proofs.Text.Cuts

/-!
Where a style block may be mended: the end of its start tag and its `lang` attribute are found at
points of the document, so no character is cut there, whatever the document holds.
-/

namespace ClassSort

structure StyleBlock.Stands (cs : List Char) (block : StyleBlock) : Prop where
  tagEnd : IsBoundary cs block.tagEnd
  lang : ∀ a ∈ block.lang, a.span.Cuts cs

namespace Markup

variable {source : String} {p q : Point}

theorem Leads.boundary (h : Leads (.ofText source) p) : IsBoundary source.toList p.pos := by
  obtain ⟨text, hcrosses⟩ := h
  exact ⟨text, p.rest, hcrosses.rest, (hcrosses.pos.trans (Nat.zero_add _)).symm⟩

theorem Leads.cuts (h : Leads (.ofText source) p) (h' : Leads p q) :
    Span.Cuts ⟨p.pos, q.pos⟩ source.toList :=
  Span.cuts_of_boundaries h.boundary (h.trans h').boundary h'.pos_le

/-- Where an attribute ends. -/
def Attribute.stop (a : Attribute) : Nat := (a.value.map (·.span.stop)).getD a.name.stop

theorem readValue_stop {hasBraces : Bool} :
    ∀ v ∈ (readValue hasBraces p).1, v.span.stop = (readValue hasBraces p).2.pos := by
  unfold readValue
  split
  · simp
  · split
    · rintro v ⟨⟩
      rfl
    · split
      · rintro v ⟨⟩
        rfl
      · rintro v ⟨⟩
        rfl

/-- An attribute reaches from the point where it is read to one behind it. -/
theorem readAttribute_reaches (hasBraces : Bool) (p : Point) :
    (readAttribute hasBraces p).1.name.start = p.pos ∧
      ∃ q, Leads p q ∧ (readAttribute hasBraces p).1.stop = q.pos := by
  have hname : Leads p (p.skip (!endsName ·)) := p.leads_skip _
  have hequals : Leads p (p.skip (!endsName ·)).skipBlanks := hname.trans (Point.leads_skip _ _)
  unfold readAttribute
  dsimp only
  split
  · exact ⟨rfl, _, hname, rfl⟩
  · split
    · have hvalue := (hequals.trans (Point.leads_next _)).trans
        (Point.leads_skip isAsciiBlank (p.skip (!endsName ·)).skipBlanks.next)
      refine ⟨rfl, ?_⟩
      generalize hread : readValue hasBraces
        (p.skip (!endsName ·)).skipBlanks.next.skipBlanks = read
      obtain ⟨_ | v, after⟩ := read
      · exact ⟨_, hname, rfl⟩
      · refine ⟨after, ?_, ?_⟩
        · have hafter := readValue_leads hasBraces (p.skip (!endsName ·)).skipBlanks.next.skipBlanks
          rw [hread] at hafter
          exact hvalue.trans hafter
        · have hv : v ∈ (readValue hasBraces (p.skip (!endsName ·)).skipBlanks.next.skipBlanks).1 := by
            rw [hread]
            rfl
          have hstop := readValue_stop v hv
          rw [hread] at hstop
          exact hstop
    · exact ⟨rfl, _, hname, rfl⟩

theorem add_lang (cs : List Char) (t : Tag) (a : Attribute) : (t.add cs a).lang = t.lang ∨
    ∃ value, (t.add cs a).lang = some ⟨⟨a.name.start, a.stop⟩, value⟩ := by
  unfold Tag.add
  extract_lets stop t₁
  have hlang : t₁.lang = t.lang ∨ ∃ value, t₁.lang = some ⟨⟨a.name.start, a.stop⟩, value⟩ := by
    unfold t₁
    split
    · exact .inr ⟨_, rfl⟩
    · exact .inl rfl
  -- what the value is good for changes nothing else
  generalize t₁ = t₂ at hlang
  dsimp only
  split
  · exact hlang
  · split
    · exact hlang
    · split
      · exact hlang
      · exact hlang

theorem readAttributes_lang {cs : List Char} {hasBraces : Bool} {fuel : Nat} {t t' : Tag} {p' : Point}
    {stop : Option Nat} (hp : Leads (.ofText source) p) (ht : ∀ a ∈ t.lang, a.span.Cuts source.toList)
    (h : readAttributes cs hasBraces fuel t p = (t', stop, p')) :
    (∀ n ∈ stop, IsBoundary source.toList n) ∧ ∀ a ∈ t'.lang, a.span.Cuts source.toList := by
  induction fuel generalizing t p with
  | zero =>
    cases h
    exact ⟨by simp, ht⟩
  | succ fuel ih =>
    have hblanks : Leads (.ofText source) p.skipBlanks := hp.trans (p.leads_skip isAsciiBlank)
    rw [readAttributes] at h
    dsimp only at h
    split at h
    · cases h
      exact ⟨by simp, ht⟩
    · split at h
      · cases h
        refine ⟨?_, ht⟩
        rintro n ⟨⟩
        exact hblanks.boundary
      · split at h
        · exact ih (hblanks.trans (Point.leads_next _)) ht h
        · split at h
          · exact ih (hblanks.trans (Point.leads_pastBraces _)) ht h
          · obtain ⟨hstart, q, hq, hstop⟩ := readAttribute_reaches hasBraces p.skipBlanks
            have hafter := (readAttribute_standing hasBraces p.skipBlanks).1
            refine ih (hblanks.trans hafter) ?_ h
            rcases add_lang cs t (readAttribute hasBraces p.skipBlanks).1 with hsame | ⟨value, hnew⟩
            · rw [hsame]
              exact ht
            · rw [hnew]
              rintro a ⟨⟩
              rw [hstart, hstop]
              exact hblanks.cuts hq

theorem readTag_style {cs : List Char} {hasBraces : Bool} {after : Point} {found : List Finding}
    (hp : Leads (.ofText source) p) (h : readTag cs hasBraces p = (found, after)) :
    ∀ block, .style block ∈ found → block.Stands source.toList := by
  have hinside : Leads (.ofText source) (p.next.skip isTagLetter) :=
    (hp.trans p.leads_next).trans (Point.leads_skip _ _)
  unfold readTag at h
  dsimp only at h
  obtain ⟨t, stop, q, hread⟩ : ∃ t stop q, readAttributes cs hasBraces
      ((p.next.skip isTagLetter).rest.length + 1)
      ⟨(p.next.rest.takeWhile isTagLetter).map Char.toLower, some .javaScript, none, []⟩
      (p.next.skip isTagLetter) = (t, stop, q) := ⟨_, _, _, rfl⟩
  obtain ⟨hstop, hlang⟩ := readAttributes_lang hinside (by simp) hread
  have hvalues (block : StyleBlock) : Finding.style block ∉ t.classes.reverse.map Finding.classes := by
    simp
  simp only [hread] at h
  intro block hblock
  split at h
  · cases h
    exact absurd hblock (hvalues block)
  · next tagEnd =>
    split at h
    · cases h
      rcases List.mem_append.mp hblock with hblock | hblock
      · exact absurd hblock (hvalues block)
      · split at hblock
        · obtain rfl : block = _ := by simpa using hblock
          exact ⟨hstop tagEnd rfl, hlang⟩
        · simp at hblock
    · cases h
      exact absurd hblock (hvalues block)

theorem scanFrom_style {cs : List Char} {hasBraces : Bool} {fuel : Nat} {block : StyleBlock}
    (hp : Leads (.ofText source) p) (h : .style block ∈ scanFrom cs hasBraces fuel p) :
    block.Stands source.toList := by
  induction fuel generalizing p with
  | zero => cases h
  | succ fuel ih =>
    rw [scanFrom] at h
    split at h
    · cases h
    · exact ih (hp.trans ((p.leads_ahead 4).trans (Point.leads_past _ _))) h
    · split at h
      · obtain ⟨found, after, hread⟩ : ∃ found after, readTag cs hasBraces p = (found, after) :=
          ⟨_, _, rfl⟩
        simp only [hread] at h
        rcases List.mem_append.mp h with h | h
        · exact readTag_style hp hread block h
        · exact ih (hp.trans (readTag_standing hread).1) h
      · exact ih (hp.trans p.leads_next) h
    · refine ih (hp.trans ?_) h
      split
      · exact p.leads_pastBraces
      · exact p.leads_next

/-- Every style block of a document stands where it says. -/
theorem scan_style {hasBraces : Bool} {block : StyleBlock}
    (h : .style block ∈ scan source hasBraces) : block.Stands source.toList :=
  scanFrom_style (.refl _) h

end Markup

end ClassSort
