import ClassSort.Proofs.Markup.Forward

/-!
Every class value was read at a point of the document, and the parts of a quoted value are the text
between its quotes, cut into pieces.
-/

namespace ClassSort.Markup

variable {p q r : Point} {cs ds : List Char}

inductive Tiles : Point → Point → List Part → Prop where
  | nil {p : Point} : Tiles p p []
  | text {p q r : Point} {cs : List Char} {parts : List Part} (crosses : Crosses p q cs) (ne : cs ≠ [])
      (rest : Tiles q r parts) : Tiles p r (.text ⟨p.pos, q.pos⟩ :: parts)
  | braces {p q r : Point} {cs : List Char} {parts : List Part} (crosses : Crosses p q cs)
      (opened : cs.head? = some '\x7b') (closed : q.rest ≠ [] → cs.getLast? = some '\x7d')
      (rest : Tiles q r parts) : Tiles p r (.braces ⟨p.pos, q.pos⟩ :: parts)

variable {parts : List Part}

theorem Tiles.leads (h : Tiles p q parts) : Leads p q := by
  induction h with
  | nil => exact .refl _
  | text hcrosses _ _ ih => exact Leads.trans ⟨_, hcrosses⟩ ih
  | braces hcrosses _ _ _ ih => exact Leads.trans ⟨_, hcrosses⟩ ih

/-- The text in front of something goes in front of the parts behind it, unless it is empty. -/
theorem Tiles.front (hparts : Tiles q r parts) (h : Crosses p q cs) :
    Tiles p r (textPart p.pos q.pos ++ parts) := by
  have hpos := h.pos
  have hrest := h.rest
  unfold textPart
  cases cs with
  | nil =>
    obtain ⟨rest, pos⟩ := p
    obtain rfl : rest = q.rest := hrest
    obtain rfl : q.pos = pos := hpos
    rw [if_neg (Nat.lt_irrefl _)]
    exact hparts
  | cons c cs =>
    have hsize := c.utf8Size_pos
    simp only [byteLength] at hpos
    rw [if_pos (by omega)]
    exact .text h (by simp) hparts

/-- The parts of a quoted value reach to its closing quote, or to the end. -/
theorem quotedParts_tiles {hasBraces : Bool} {quote : Char} {fuel : Nat} {start close : Point}
    (hstart : Crosses start p cs) (hfuel : p.rest.length ≤ fuel)
    (h : quotedParts hasBraces quote fuel start.pos p = (parts, close)) :
    Tiles start close parts ∧ (close.rest = [] ∨ close.rest.head? = some quote) := by
  induction fuel generalizing start p cs parts with
  | zero =>
    cases h
    refine ⟨?_, .inl (List.length_eq_zero_iff.mp (Nat.le_zero.mp hfuel))⟩
    simpa using Tiles.nil.front hstart
  | succ fuel ih =>
    rw [quotedParts] at h
    split at h
    · next hrest =>
      cases h
      refine ⟨?_, .inl hrest⟩
      simpa using Tiles.nil.front hstart
    · next c rest hrest =>
      have hhead : p.rest.head? = some c := by rw [hrest]; rfl
      split at h
      · next hquote =>
        cases h
        refine ⟨?_, .inr (by rw [hhead, eq_of_beq hquote])⟩
        simpa using Tiles.nil.front hstart
      · split at h
        · next hbraces =>
          simp only [Bool.and_eq_true, beq_iff_eq] at hbraces
          obtain ⟨text, hcrosses, hopened, hclosed⟩ :=
            p.closesAt_pastBraces.braces (hbraces.1 ▸ hhead)
          obtain ⟨inner, last, hinner⟩ : ∃ inner last,
              quotedParts hasBraces quote fuel p.pastBraces.pos p.pastBraces = (inner, last) :=
            ⟨_, _, rfl⟩
          simp only [hinner] at h
          cases h
          have hshorter : p.pastBraces.rest.length ≤ fuel := by
            have htext : text ≠ [] := by
              rintro rfl
              cases hopened
            have hlength := congrArg List.length hcrosses.rest
            have hpositive := List.length_pos_iff.mpr htext
            rw [List.length_append] at hlength
            omega
          obtain ⟨htiles, hend⟩ := ih (.refl _) hshorter hinner
          exact ⟨(Tiles.braces hcrosses hopened hclosed htiles).front hstart, hend⟩
        · have hnext := Point.crosses_next hhead
          have hshorter : p.next.rest.length ≤ fuel := by
            have hlength := congrArg List.length hnext.rest
            simp only [List.length_append, List.length_singleton] at hlength
            omega
          exact ih (hstart.trans hnext) hshorter h

def Value.ReadFrom (hasBraces : Bool) (p : Point) (v : Value) : Prop :=
  ∃ q, Leads p q ∧ (readValue hasBraces q).1 = some v

theorem Value.ReadFrom.mono {hasBraces : Bool} {v : Value} (h : Leads p q) (hv : v.ReadFrom hasBraces q) :
    v.ReadFrom hasBraces p := by
  obtain ⟨at', hat, hread⟩ := hv
  exact ⟨at', h.trans hat, hread⟩

theorem readQuoted_leads (hasBraces : Bool) (quote : Char) (p : Point) :
    Leads p (readQuoted hasBraces quote p).2 := by
  obtain ⟨parts, close, hread⟩ : ∃ parts close,
      quotedParts hasBraces quote p.next.rest.length p.next.pos p.next = (parts, close) := ⟨_, _, rfl⟩
  obtain ⟨htiles, -⟩ := quotedParts_tiles (.refl p.next) (Nat.le_refl _) hread
  simp only [readQuoted, hread]
  exact p.leads_next.trans (htiles.leads.trans close.leads_next)

theorem readValue_leads (hasBraces : Bool) (p : Point) : Leads p (readValue hasBraces p).2 := by
  unfold readValue
  split
  · exact .refl p
  · next c _ _ =>
    split
    · exact readQuoted_leads hasBraces c p
    · split
      · exact p.leads_pastBraces
      · exact p.leads_skip _

theorem readAttribute_standing (hasBraces : Bool) (p : Point) : Leads p (readAttribute hasBraces p).2 ∧
    ∀ v ∈ (readAttribute hasBraces p).1.value, v.ReadFrom hasBraces p := by
  have hequals : Leads p (p.skip (!endsName ·)).skipBlanks := (p.leads_skip _).trans (Point.leads_skip _ _)
  unfold readAttribute
  dsimp only
  split
  · exact ⟨p.leads_next, by simp⟩
  · split
    · have hvalue := (hequals.trans (Point.leads_next _)).trans
        (Point.leads_skip isAsciiBlank (p.skip (!endsName ·)).skipBlanks.next)
      refine ⟨hvalue.trans (readValue_leads hasBraces _), ?_⟩
      intro v hv
      exact ⟨_, hvalue, hv⟩
    · exact ⟨hequals, by simp⟩

theorem readAttributes_standing {source : List Char} {hasBraces : Bool} {fuel : Nat} {t t' : Tag}
    {p' : Point} {stop : Option Nat} (h : readAttributes source hasBraces fuel t p = (t', stop, p')) :
    Leads p p' ∧ ∀ v, .classes v ∈ t'.found → .classes v ∈ t.found ∨ v.ReadFrom hasBraces p := by
  induction fuel generalizing t p with
  | zero =>
    cases h
    exact ⟨.refl _, fun v hv => .inl hv⟩
  | succ fuel ih =>
    have hblanks : Leads p p.skipBlanks := p.leads_skip isAsciiBlank
    -- whatever is read next goes on from behind the blanks
    have hon {p₁ : Point} (hled : Leads p.skipBlanks p₁)
        (h : readAttributes source hasBraces fuel t p₁ = (t', stop, p')) :
        Leads p p' ∧ ∀ v, .classes v ∈ t'.found → .classes v ∈ t.found ∨ v.ReadFrom hasBraces p := by
      obtain ⟨hleads, hfound⟩ := ih h
      refine ⟨hblanks.trans (hled.trans hleads), ?_⟩
      intro v hv
      exact (hfound v hv).imp_right (Value.ReadFrom.mono (hblanks.trans hled))
    rw [readAttributes] at h
    dsimp only at h
    split at h
    · cases h
      exact ⟨hblanks, fun v hv => .inl hv⟩
    · split at h
      · cases h
        exact ⟨hblanks.trans (Point.leads_next _), fun v hv => .inl hv⟩
      · split at h
        · exact hon (Point.leads_next _) h
        · split at h
          · exact hon (Point.leads_pastBraces _) h
          · obtain ⟨hafter, hvalue⟩ := readAttribute_standing hasBraces p.skipBlanks
            obtain ⟨hleads, hfound⟩ := ih h
            refine ⟨hblanks.trans (hafter.trans hleads), ?_⟩
            intro v hv
            rcases hfound v hv with hv | hv
            · rcases add_found source t (readAttribute hasBraces p.skipBlanks).1 with hsame | ⟨w, hw, hnew⟩
              · rw [hsame] at hv
                exact .inl hv
              · rw [hnew, List.mem_append, List.mem_singleton] at hv
                rcases hv with hv | hv
                · exact .inl hv
                · cases hv
                  exact .inr ((hvalue v hw).mono hblanks)
            · exact .inr (hv.mono (hblanks.trans hafter))

theorem readTag_standing {source : List Char} {hasBraces : Bool} {after : Point} {found : List Finding}
    (h : readTag source hasBraces p = (found, after)) :
    Leads p after ∧ ∀ v, .classes v ∈ found → v.ReadFrom hasBraces p := by
  have hname : Leads p (p.next.skip isTagLetter) := p.leads_next.trans (Point.leads_skip _ _)
  unfold readTag at h
  dsimp only at h
  obtain ⟨t, stop, q, hread⟩ : ∃ t stop q, readAttributes source hasBraces
      ((p.next.skip isTagLetter).rest.length + 1)
      ⟨(p.next.rest.takeWhile isTagLetter).map Char.toLower, some .javaScript, none, []⟩
      (p.next.skip isTagLetter) = (t, stop, q) := ⟨_, _, _, rfl⟩
  obtain ⟨hleads, hvalues⟩ := readAttributes_standing hread
  have hleads := hname.trans hleads
  have hfound : ∀ v, Finding.classes v ∈ t.found → v.ReadFrom hasBraces p := by
    intro v hv
    rcases hvalues v hv with hv | hv
    · cases hv
    · exact hv.mono hname
  simp only [hread] at h
  split at h
  · cases h
    exact ⟨hleads, hfound⟩
  · split at h
    · cases h
      refine ⟨hleads.trans (Point.leads_find _ q), ?_⟩
      intro v hv
      rcases List.mem_append.mp hv with hv | hv
      · exact hfound v hv
      · -- the body of a script or style block is no class value
        split at hv
        · simp at hv
        · simp at hv
    · cases h
      exact ⟨hleads, hfound⟩

theorem scanFrom_standing {source : List Char} {hasBraces : Bool} {fuel : Nat} {v : Value}
    (h : .classes v ∈ scanFrom source hasBraces fuel p) : v.ReadFrom hasBraces p := by
  induction fuel generalizing p with
  | zero => cases h
  | succ fuel ih =>
    have hon {q : Point} (hq : Leads p q) (h : .classes v ∈ scanFrom source hasBraces fuel q) :
        v.ReadFrom hasBraces p := (ih h).mono hq
    rw [scanFrom] at h
    split at h
    · cases h
    · exact hon ((p.leads_ahead 4).trans (Point.leads_past _ _)) h
    · split at h
      · obtain ⟨found, after, hread⟩ : ∃ found after,
            readTag source hasBraces p = (found, after) := ⟨_, _, rfl⟩
        obtain ⟨hleads, hvalues⟩ := readTag_standing hread
        simp only [hread] at h
        rcases List.mem_append.mp h with h | h
        · exact hvalues v h
        · exact hon hleads h
      · exact hon p.leads_next h
    · refine hon ?_ h
      split
      · exact p.leads_pastBraces
      · exact p.leads_next

/-- Every class value was read at a point of the document. -/
theorem scan_standing {source : String} {hasBraces : Bool} {v : Value}
    (h : .classes v ∈ scan source hasBraces) : v.ReadFrom hasBraces (.ofText source) :=
  scanFrom_standing h

/-- The closing quote is there: no part of the value reaches to its end. -/
def Value.IsClosed (v : Value) : Prop := ∀ part ∈ v.parts, part.span.stop < v.span.stop

instance (v : Value) : Decidable v.IsClosed :=
  inferInstanceAs (Decidable (∀ part ∈ v.parts, part.span.stop < v.span.stop))

theorem Tiles.reaches_cons {part : Part} (hpart : part.span.stop = q.pos) (hrest : Tiles q r parts)
    (ih : parts ≠ [] → ∃ last ∈ parts, last.span.stop = r.pos) :
    ∃ last ∈ part :: parts, last.span.stop = r.pos := by
  by_cases hne : parts = []
  · subst hne
    cases hrest
    exact ⟨part, List.mem_cons_self, hpart⟩
  · obtain ⟨last, hmem, hstop⟩ := ih hne
    exact ⟨last, List.mem_cons_of_mem _ hmem, hstop⟩

theorem Tiles.reaches (h : Tiles p q parts) (hne : parts ≠ []) : ∃ last ∈ parts, last.span.stop = q.pos := by
  induction h with
  | nil => exact absurd rfl hne
  | text _ _ hrest ih => exact reaches_cons rfl hrest ih
  | braces _ _ _ hrest ih => exact reaches_cons rfl hrest ih

/-- The parts of a closed value cover what stands between its quotes. -/
theorem Value.IsClosed.tiles {source : String} {hasBraces : Bool} {v : Value} (hclosed : v.IsClosed)
    (hread : v.ReadFrom hasBraces (.ofText source)) (hquoted : v.isQuoted = true) (hne : v.parts ≠ []) :
    ∃ first last : Point, Leads (.ofText source) first ∧ Tiles first last v.parts ∧
      v.span.inner = ⟨first.pos, last.pos⟩ ∧ last.rest ≠ [] := by
  obtain ⟨p, hleads, hread⟩ := hread
  unfold readValue at hread
  split at hread
  · cases hread
  · next c cs hrest =>
    split at hread
    · next hquote =>
      obtain ⟨parts, close, hparts⟩ : ∃ parts close,
          quotedParts hasBraces c p.next.rest.length p.next.pos p.next = (parts, close) := ⟨_, _, rfl⟩
      obtain ⟨htiles, hend⟩ := quotedParts_tiles (.refl p.next) (Nat.le_refl _) hparts
      simp only [readQuoted, hparts] at hread
      cases hread
      have hwidth : c.utf8Size = 1 := by
        rcases (Bool.or_eq_true _ _).mp hquote with hc | hc
        · rw [eq_of_beq hc]
          rfl
        · rw [eq_of_beq hc]
          rfl
      have hopen : p.next.pos = p.pos + 1 := by
        rw [(Point.crosses_next (show p.rest.head? = some c by rw [hrest]; rfl)).pos]
        simp [byteLength, hwidth]
      rcases hend with hend | hend
      · -- nothing follows the last part, so that the value ends with it
        obtain ⟨part, hmem, hstop⟩ := htiles.reaches hne
        have hlt := hclosed part hmem
        have hsame : close.next = close := by simp [Point.next, hend]
        simp only [hsame, hstop] at hlt
        exact absurd hlt (Nat.lt_irrefl _)
      · have hclose : close.next.pos = close.pos + 1 := by
          rw [(Point.crosses_next hend).pos]
          simp [byteLength, hwidth]
        refine ⟨p.next, close, hleads.trans p.leads_next, htiles, ?_, ?_⟩
        · simp [Span.inner, hopen, hclose]
        · intro hnil
          rw [hnil] at hend
          cases hend
    · split at hread
      · cases hread
        cases hquoted
      · cases hread
        cases hquoted

end ClassSort.Markup
