import ClassSort.Markup.Scan
import ClassSort.Proofs.Markup.Crossing
import Mathlib.Data.List.Chain

/-!
A scan only moves forward. So the scripts, style blocks and class values that it finds follow one
another in the document, and so do the parts of a value.
-/

namespace ClassSort.Markup

namespace Point

theorem pos_le_next (p : Point) : p.pos ≤ p.next.pos := p.leads_next.pos_le

theorem pos_le_skip (q : Char → Bool) (p : Point) : p.pos ≤ (p.skip q).pos := (p.leads_skip q).pos_le

theorem pos_le_ahead (n : Nat) (p : Point) : p.pos ≤ (p.ahead n).pos := (p.leads_ahead n).pos_le

theorem pos_le_find (q : List Char → Bool) (p : Point) : p.pos ≤ (p.find q).pos := (p.leads_find q).pos_le

theorem pos_le_past (mark : List Char) (p : Point) : p.pos ≤ (p.past mark).pos := (p.leads_past mark).pos_le

theorem pos_le_pastBraces (p : Point) : p.pos ≤ p.pastBraces.pos := p.leads_pastBraces.pos_le

end Point

def Part.span : Part → Span
  | .text s | .braces s => s

def PartsRow : Nat → Nat → List Part → Prop
  | _, _, [] => True
  | start, stop, part :: parts => start ≤ part.span.start ∧ part.span.start ≤ part.span.stop ∧
    part.span.stop ≤ stop ∧ PartsRow part.span.stop stop parts

theorem PartsRow.weaken {a b a' b' : Nat} {parts : List Part} (h : PartsRow a b parts) (ha : a' ≤ a)
    (hb : b ≤ b') : PartsRow a' b' parts := by
  induction parts generalizing a a' with
  | nil => trivial
  | cons part parts ih =>
    obtain ⟨hstart, hordered, hstop, hrest⟩ := h
    exact ⟨Nat.le_trans ha hstart, hordered, Nat.le_trans hstop hb, ih hrest (Nat.le_refl _)⟩

def Part.Alternate : Part → Part → Prop
  | .text _, .text _ => False
  | _, _ => True

structure Value.Forward (v : Value) : Prop where
  ordered : v.span.start ≤ v.span.stop
  parts : PartsRow v.span.start v.span.stop v.parts
  alternate : v.parts.IsChain Part.Alternate

/-- The text in front of something goes in front of the parts behind it. -/
theorem textPart_row {start stop b : Nat} {parts : List Part} (h : PartsRow stop b parts)
    (hle : start ≤ stop) (hb : stop ≤ b) : PartsRow start b (textPart start stop ++ parts) := by
  unfold textPart
  split
  · exact ⟨Nat.le_refl _, hle, hb, h⟩
  · exact h.weaken hle (Nat.le_refl _)

theorem textPart_last {start stop : Nat} (h : start ≤ stop) :
    PartsRow start stop (textPart start stop) := by
  have hlast : PartsRow start stop (textPart start stop ++ []) :=
    textPart_row trivial h (Nat.le_refl _)
  rwa [List.append_nil] at hlast

theorem textPart_alternate (start stop : Nat) : (textPart start stop).IsChain Part.Alternate := by
  unfold textPart
  split
  · exact .singleton _
  · exact .nil

theorem braces_alternate {start stop : Nat} {s : Span} {parts : List Part}
    (h : parts.IsChain Part.Alternate) :
    (textPart start stop ++ .braces s :: parts).IsChain Part.Alternate := by
  have hbraces : (Part.braces s :: parts).IsChain Part.Alternate := by
    cases parts with
    | nil => exact .singleton _
    | cons p parts => exact .cons_cons trivial h
  unfold textPart
  split
  · exact .cons_cons trivial hbraces
  · exact hbraces

theorem quotedParts_row {hasBraces : Bool} {quote : Char} {fuel start : Nat} {p close : Point}
    {parts : List Part} (hle : start ≤ p.pos)
    (h : quotedParts hasBraces quote fuel start p = (parts, close)) :
    p.pos ≤ close.pos ∧ PartsRow start close.pos parts ∧ parts.IsChain Part.Alternate := by
  induction fuel generalizing start p parts with
  | zero =>
    cases h
    exact ⟨Nat.le_refl _, textPart_last hle, textPart_alternate _ _⟩
  | succ fuel ih =>
    rw [quotedParts] at h
    split at h
    · cases h
      exact ⟨Nat.le_refl _, textPart_last hle, textPart_alternate _ _⟩
    · split at h
      · cases h
        exact ⟨Nat.le_refl _, textPart_last hle, textPart_alternate _ _⟩
      · split at h
        · obtain ⟨inner, last, hinner⟩ : ∃ inner last,
              quotedParts hasBraces quote fuel p.pastBraces.pos p.pastBraces = (inner, last) :=
            ⟨_, _, rfl⟩
          simp only [hinner] at h
          cases h
          have hbraces := p.pos_le_pastBraces
          obtain ⟨hpos, hparts, halternate⟩ := ih (Nat.le_refl _) hinner
          refine ⟨Nat.le_trans hbraces hpos, ?_, braces_alternate halternate⟩
          exact textPart_row ⟨Nat.le_refl _, hbraces, hpos, hparts⟩ hle (Nat.le_trans hbraces hpos)
        · obtain ⟨hpos, hparts⟩ := ih (Nat.le_trans hle p.pos_le_next) h
          exact ⟨Nat.le_trans p.pos_le_next hpos, hparts⟩

/-- A value that was read between two positions. -/
structure Value.Between (start stop : Nat) (v : Value) : Prop where
  forward : v.Forward
  start : start ≤ v.span.start
  stop : v.span.stop ≤ stop

theorem readQuoted_forward (hasBraces : Bool) (quote : Char) (p : Point) :
    (readQuoted hasBraces quote p).1.Between p.pos (readQuoted hasBraces quote p).2.pos := by
  obtain ⟨parts, close, hread⟩ : ∃ parts close,
      quotedParts hasBraces quote p.next.rest.length p.next.pos p.next = (parts, close) := ⟨_, _, rfl⟩
  have hinside := quotedParts_row (Nat.le_refl p.next.pos) hread
  have hopen := p.pos_le_next
  have hclose := close.pos_le_next
  simp only [readQuoted, hread]
  refine ⟨⟨?_, hinside.2.1.weaken hopen hclose, hinside.2.2⟩, Nat.le_refl _, Nat.le_refl _⟩
  exact Nat.le_trans hopen (Nat.le_trans hinside.1 hclose)

/-- A value of a single part. -/
theorem single_between {part : Part} {isQuoted : Bool} (h : part.span.start ≤ part.span.stop) :
    Value.Between part.span.start part.span.stop ⟨part.span, isQuoted, [part]⟩ :=
  ⟨⟨h, ⟨Nat.le_refl _, h, Nat.le_refl _, trivial⟩, .singleton _⟩, Nat.le_refl _, Nat.le_refl _⟩

theorem readValue_forward (hasBraces : Bool) (p : Point) :
    p.pos ≤ (readValue hasBraces p).2.pos ∧
      ∀ v ∈ (readValue hasBraces p).1, v.Between p.pos (readValue hasBraces p).2.pos := by
  unfold readValue
  split
  · exact ⟨Nat.le_refl _, by simp⟩
  · next c _ _ =>
    split
    · have hquoted := readQuoted_forward hasBraces c p
      refine ⟨?_, by simpa using hquoted⟩
      exact Nat.le_trans hquoted.start (Nat.le_trans hquoted.forward.ordered hquoted.stop)
    · split
      · have hbraces : (Part.braces ⟨p.pos, p.pastBraces.pos⟩).span.start ≤ p.pastBraces.pos :=
          p.pos_le_pastBraces
        refine ⟨hbraces, fun v hv => ?_⟩
        cases hv
        exact single_between hbraces
      · have hskip : (Part.text ⟨p.pos, (p.skip (!endsBareValue ·)).pos⟩).span.start ≤
            (p.skip (!endsBareValue ·)).pos := p.pos_le_skip (!endsBareValue ·)
        refine ⟨hskip, fun v hv => ?_⟩
        cases hv
        exact single_between hskip

theorem readAttribute_forward (hasBraces : Bool) (p : Point) :
    p.pos ≤ (readAttribute hasBraces p).2.pos ∧
      ∀ v ∈ (readAttribute hasBraces p).1.value, v.Between p.pos (readAttribute hasBraces p).2.pos := by
  have hname := p.pos_le_skip (!endsName ·)
  have hequals := Nat.le_trans hname (Point.pos_le_skip isAsciiBlank (p.skip (!endsName ·)))
  unfold readAttribute
  dsimp only
  split
  · exact ⟨p.pos_le_next, by simp⟩
  · split
    · have hvalue := Nat.le_trans (Nat.le_trans hequals (Point.pos_le_next _))
        (Point.pos_le_skip isAsciiBlank (p.skip (!endsName ·)).skipBlanks.next)
      obtain ⟨hafter, hbetween⟩ :=
        readValue_forward hasBraces (p.skip (!endsName ·)).skipBlanks.next.skipBlanks
      refine ⟨Nat.le_trans hvalue hafter, fun v hv => ?_⟩
      have hv := hbetween v hv
      exact ⟨hv.forward, Nat.le_trans hvalue hv.start, hv.stop⟩
    · exact ⟨hequals, by simp⟩

def Finding.span : Finding → Span
  | .script content _ => content
  | .style block => block.body
  | .classes v => v.span

def Finding.Forward : Finding → Prop
  | .classes v => v.Forward
  | f => f.span.start ≤ f.span.stop

def FindingsRow : Nat → Nat → List Finding → Prop
  | start, stop, [] => start ≤ stop
  | start, stop, f :: fs => start ≤ f.span.start ∧ f.Forward ∧ FindingsRow f.span.stop stop fs

theorem Finding.Forward.ordered {f : Finding} (h : f.Forward) : f.span.start ≤ f.span.stop := by
  cases f with
  | classes v => exact Value.Forward.ordered h
  | script => exact h
  | style => exact h

theorem FindingsRow.ordered {a b : Nat} {fs : List Finding} (h : FindingsRow a b fs) : a ≤ b := by
  induction fs generalizing a with
  | nil => exact h
  | cons f fs ih => exact Nat.le_trans h.1 (Nat.le_trans h.2.1.ordered (ih h.2.2))

theorem FindingsRow.classes {a b : Nat} {fs : List Finding} (h : FindingsRow a b fs) :
    ∀ v, .classes v ∈ fs → v.Forward := by
  induction fs generalizing a with
  | nil => simp
  | cons f fs ih =>
    intro v hv
    rcases List.mem_cons.mp hv with rfl | hv
    · exact h.2.1
    · exact ih h.2.2 v hv

theorem FindingsRow.append {a b c : Nat} {fs gs : List Finding} (hf : FindingsRow a b fs)
    (hg : FindingsRow b c gs) : FindingsRow a c (fs ++ gs) := by
  induction fs generalizing a with
  | nil =>
    cases gs with
    | nil => exact Nat.le_trans hf hg
    | cons g gs => exact ⟨Nat.le_trans hf hg.1, hg.2⟩
  | cons f fs ih => exact ⟨hf.1, hf.2.1, ih hf.2.2⟩

/-- The class values of a tag in their order. -/
def Tag.found (t : Tag) : List Finding := t.classes.reverse.map .classes

theorem add_found (source : List Char) (t : Tag) (a : Attribute) : (t.add source a).found = t.found ∨
    ∃ v ∈ a.value, (t.add source a).found = t.found ++ [.classes v] := by
  unfold Tag.add
  extract_lets _ t₁
  have hlang : t₁.found = t.found := by
    unfold t₁
    split <;> rfl
  rw [← hlang]
  generalize t₁ = t₂
  dsimp only
  split
  · exact .inl rfl
  · next v hv =>
    split
    · exact .inl rfl
    · split
      · right
        exact ⟨v, hv, by simp [Tag.found]⟩
      · exact .inl rfl

theorem FindingsRow.weaken {a b a' b' : Nat} {fs : List Finding} (h : FindingsRow a b fs) (ha : a' ≤ a)
    (hb : b ≤ b') : FindingsRow a' b' fs := by
  induction fs generalizing a a' with
  | nil => exact Nat.le_trans ha (Nat.le_trans h hb)
  | cons f fs ih => exact ⟨Nat.le_trans ha h.1, h.2.1, ih h.2.2 (Nat.le_refl _)⟩

theorem FindingsRow.single {start stop : Nat} {f : Finding} (hstart : start ≤ f.span.start)
    (hf : f.Forward) (hstop : f.span.stop ≤ stop) : FindingsRow start stop [f] :=
  ⟨hstart, hf, hstop⟩

/-- One more attribute leaves the class values of a tag in a row. -/
theorem FindingsRow.add {source : List Char} {start b : Nat} {t : Tag} {a : Attribute} {after : Nat}
    (h : FindingsRow start b t.found) (hb : b ≤ after) (hv : ∀ v ∈ a.value, v.Between b after) :
    FindingsRow start after (t.add source a).found := by
  obtain hsame | ⟨v, hmem, hnew⟩ := add_found source t a
  · rw [hsame]
    exact h.weaken (Nat.le_refl _) hb
  · rw [hnew]
    have hbetween := hv v hmem
    exact h.append (.single hbetween.start hbetween.forward hbetween.stop)

theorem readAttributes_row {source : List Char} {hasBraces : Bool} {fuel start : Nat} {t t' : Tag}
    {p p' : Point} {stop : Option Nat} (hrow : FindingsRow start p.pos t.found)
    (h : readAttributes source hasBraces fuel t p = (t', stop, p')) :
    p.pos ≤ p'.pos ∧ FindingsRow start p'.pos t'.found := by
  induction fuel generalizing t p with
  | zero =>
    cases h
    exact ⟨Nat.le_refl _, hrow⟩
  | succ fuel ih =>
    have hblanks : p.pos ≤ p.skipBlanks.pos := p.pos_le_skip isAsciiBlank
    -- whatever is read next goes on from behind the blanks
    have hon {t₁ : Tag} {p₁ : Point} (hpos : p.skipBlanks.pos ≤ p₁.pos)
        (hrow₁ : FindingsRow start p₁.pos t₁.found)
        (h : readAttributes source hasBraces fuel t₁ p₁ = (t', stop, p')) :
        p.pos ≤ p'.pos ∧ FindingsRow start p'.pos t'.found := by
      obtain ⟨hle, hrow'⟩ := ih hrow₁ h
      exact ⟨Nat.le_trans hblanks (Nat.le_trans hpos hle), hrow'⟩
    have hrow := hrow.weaken (Nat.le_refl _) hblanks
    rw [readAttributes] at h
    dsimp only at h
    split at h
    · cases h
      exact ⟨hblanks, hrow⟩
    · split at h
      · cases h
        exact ⟨Nat.le_trans hblanks (Point.pos_le_next _),
          hrow.weaken (Nat.le_refl _) (Point.pos_le_next _)⟩
      · split at h
        · exact hon (Point.pos_le_next _) (hrow.weaken (Nat.le_refl _) (Point.pos_le_next _)) h
        · split at h
          · exact hon (Point.pos_le_pastBraces _)
              (hrow.weaken (Nat.le_refl _) (Point.pos_le_pastBraces _)) h
          · obtain ⟨hpos, hvalue⟩ := readAttribute_forward hasBraces p.skipBlanks
            exact hon hpos (hrow.add hpos hvalue) h

/-- A tag and the script or style body behind it. -/
theorem readTag_row {source : List Char} {hasBraces : Bool} {p after : Point} {found : List Finding}
    (h : readTag source hasBraces p = (found, after)) :
    p.pos ≤ after.pos ∧ FindingsRow p.pos after.pos found := by
  have hname : p.pos ≤ (p.next.skip isTagLetter).pos :=
    Nat.le_trans p.pos_le_next (Point.pos_le_skip _ _)
  unfold readTag at h
  dsimp only at h
  obtain ⟨t, stop, q, hread⟩ : ∃ t stop q, readAttributes source hasBraces
      ((p.next.skip isTagLetter).rest.length + 1)
      ⟨(p.next.rest.takeWhile isTagLetter).map Char.toLower, some .javaScript, none, []⟩
      (p.next.skip isTagLetter) = (t, stop, q) := ⟨_, _, _, rfl⟩
  obtain ⟨hle, hrow⟩ := readAttributes_row (show FindingsRow p.pos _ [] from hname) hread
  have hle := Nat.le_trans hname hle
  simp only [hread] at h
  split at h
  · cases h
    exact ⟨hle, hrow⟩
  · split at h
    · have hfind := q.pos_le_find
        (closes ((p.next.rest.takeWhile isTagLetter).map Char.toLower))
      cases h
      refine ⟨Nat.le_trans hle hfind, hrow.append ?_⟩
      split
      · exact .single (Nat.le_refl _) hfind (Nat.le_refl _)
      · cases t.dialect with
        | none => exact hfind
        | some d => exact .single (Nat.le_refl _) hfind (Nat.le_refl _)
    · cases h
      exact ⟨hle, hrow⟩

theorem scanFrom_row {source : List Char} {hasBraces : Bool} (fuel : Nat) (p : Point) :
    ∃ stop, FindingsRow p.pos stop (scanFrom source hasBraces fuel p) := by
  induction fuel generalizing p with
  | zero => exact ⟨p.pos, Nat.le_refl _⟩
  | succ fuel ih =>
    -- what is skipped holds no finding
    have hon {q : Point} (hq : p.pos ≤ q.pos) :
        ∃ stop, FindingsRow p.pos stop (scanFrom source hasBraces fuel q) := by
      obtain ⟨stop, hrow⟩ := ih q
      exact ⟨stop, hrow.weaken hq (Nat.le_refl _)⟩
    rw [scanFrom]
    split
    · exact ⟨p.pos, Nat.le_refl _⟩
    · exact hon (Nat.le_trans (p.pos_le_ahead 4) (Point.pos_le_past _ _))
    · split
      · obtain ⟨found, after, hread⟩ : ∃ found after,
            readTag source hasBraces p = (found, after) := ⟨_, _, rfl⟩
        obtain ⟨stop, hrest⟩ := ih after
        simp only [hread]
        exact ⟨stop, (readTag_row hread).2.append hrest⟩
      · exact hon p.pos_le_next
    · refine hon ?_
      split
      · exact p.pos_le_pastBraces
      · exact p.pos_le_next

/-- What a scan finds stands in the document in its order. -/
theorem scan_row (source : String) (hasBraces : Bool) :
    ∃ stop, FindingsRow 0 stop (scan source hasBraces) :=
  scanFrom_row _ (Point.ofText source)

end ClassSort.Markup
