import ClassSort.Proofs.Markup.Attributes
import ClassSort.Proofs.Markup.Exchanged

/-!
What holds of every document, however broken it is: a scan comes to its end, every range it reports can
be cut out of the document, its findings follow one another, and the parts of a quoted value fill it
from quote to quote.
-/

namespace ClassSort.Markup

def Finding.spans : Finding → List Span
  | .script content _ => [content]
  | .style block => ⟨block.tagEnd, block.tagEnd + 1⟩ :: block.body ::
      block.lang.toList.flatMap fun lang => lang.span :: lang.value.toList
  | .classes v => v.span :: v.parts.map Part.span

def Abut : Nat → Nat → List Part → Prop
  | start, stop, [] => start = stop
  | start, stop, part :: parts =>
    part.span.start = start ∧ start < part.span.stop ∧ Abut part.span.stop stop parts

/-- A part reads as what it is: a text holds neither the quote nor, where there are any, an opening
brace, and an expression begins with one. -/
def Part.ReadsIn (source : List Char) (hasBraces : Bool) (quote : Char) : Part → Prop
  | .text s => ∃ text, sliceChars? source s = some text ∧ quote ∉ text ∧ (hasBraces = true → '\x7b' ∉ text)
  | .braces s => hasBraces = true ∧ ∃ text, sliceChars? source s = some text ∧ text.head? = some '\x7b'

structure Value.Filled (source : List Char) (hasBraces : Bool) (quote : Char) (close : Nat) (v : Value) :
    Prop where
  isQuote : quote = '"' ∨ quote = '\''
  opened : sliceChars? source ⟨v.span.start, v.span.start + 1⟩ = some [quote]
  closed : (v.span.stop = close + 1 ∧ sliceChars? source ⟨close, close + 1⟩ = some [quote]) ∨
    (v.span.stop = close ∧ close = byteLength source)
  abut : Abut (v.span.start + 1) close v.parts
  alternate : v.parts.IsChain Part.Alternate
  parts : ∀ part ∈ v.parts, part.ReadsIn source hasBraces quote

structure Orderly (source : String) (hasBraces : Bool) (found : List Finding) : Prop where
  /-- They are found step by step, and the last step comes to the end of the document. -/
  complete : ∃ q, Run (scanNext? source.toList hasBraces) (.ofText source) found q ∧ q.rest = []
  /-- A step over a tag comes to the end of the tag or of the document. -/
  tags : ∀ p, ∃ as q, Run (nextAttribute? hasBraces) p.inTag as q ∧ nextAttribute? hasBraces q = none ∧
    readTag source.toList hasBraces p = tagFound source.toList p.tagName as q
  cuts : ∀ f ∈ found, ∀ s ∈ f.spans, s.Cuts source.toList
  inOrder : found.Pairwise fun f g => f.span.Before g.span
  filled : ∀ v, .classes v ∈ found → v.isQuoted = true →
    ∃ quote close, v.Filled source.toList hasBraces quote close

variable {source : String} {hasBraces : Bool} {quote : Char} {fuel : Nat} {p q r start close : Point}
  {cs : List Char} {parts : List Part} {v : Value} {as : List Attribute}

/-! Quoted values. -/

theorem Crosses.pos_lt (h : Crosses p q cs) (hne : cs ≠ []) : p.pos < q.pos := by
  obtain ⟨c, cs, rfl⟩ := List.exists_cons_of_ne_nil hne
  have hpos := h.pos
  have hsize := c.utf8Size_pos
  simp only [byteLength] at hpos
  omega

theorem Tiles.abut (h : Tiles p q parts) : Abut p.pos q.pos parts := by
  induction h with
  | nil => exact rfl
  | text hcrosses hne _ ih => exact ⟨rfl, hcrosses.pos_lt hne, ih⟩
  | braces hcrosses hopened _ _ ih =>
    refine ⟨rfl, hcrosses.pos_lt ?_, ih⟩
    rintro rfl
    cases hopened

theorem textPart_readsIn (hstart : Leads (.ofText source) start) (hcrosses : Crosses start p cs)
    (hcs : ∀ c ∈ cs, c ≠ quote ∧ (hasBraces = true → c ≠ '\x7b')) :
    ∀ part ∈ textPart start.pos p.pos, part.ReadsIn source.toList hasBraces quote := by
  unfold textPart
  split
  · intro part hpart
    rw [List.mem_singleton] at hpart
    subst hpart
    exact ⟨cs, hcrosses.slice hstart, fun hquote => (hcs quote hquote).1 rfl,
      fun hbraces hopen => (hcs _ hopen).2 hbraces rfl⟩
  · simp

/-- `start` is where the last text began; what lies between it and `p` is a part of that text. -/
theorem quotedParts_readsIn (hstart : Leads (.ofText source) start) (hcrosses : Crosses start p cs)
    (hcs : ∀ c ∈ cs, c ≠ quote ∧ (hasBraces = true → c ≠ '\x7b'))
    (h : quotedParts hasBraces quote fuel start.pos p = (parts, close)) :
    ∀ part ∈ parts, part.ReadsIn source.toList hasBraces quote := by
  induction fuel generalizing start p cs parts with
  | zero =>
    cases h
    exact textPart_readsIn hstart hcrosses hcs
  | succ fuel ih =>
    rw [quotedParts] at h
    split at h
    · cases h
      exact textPart_readsIn hstart hcrosses hcs
    · next c rest hrest =>
      have hhead : p.rest.head? = some c := by rw [hrest]; rfl
      split at h
      · cases h
        exact textPart_readsIn hstart hcrosses hcs
      · next hquote =>
        have hp : Leads (.ofText source) p := hstart.trans ⟨cs, hcrosses⟩
        split at h
        · next hopen =>
          simp only [Bool.and_eq_true, beq_iff_eq] at hopen
          obtain ⟨text, hbraces, hopened, -⟩ := p.closesAt_pastBraces.braces (hopen.1 ▸ hhead)
          obtain ⟨inner, last, hinner⟩ : ∃ inner last,
              quotedParts hasBraces quote fuel p.pastBraces.pos p.pastBraces = (inner, last) :=
            ⟨_, _, rfl⟩
          simp only [hinner] at h
          cases h
          intro part hpart
          rcases List.mem_append.mp hpart with hpart | hpart
          · exact textPart_readsIn hstart hcrosses hcs part hpart
          · rcases List.mem_cons.mp hpart with rfl | hpart
            · exact ⟨hopen.2, text, hbraces.slice hp, hopened⟩
            · exact ih (hp.trans p.leads_pastBraces) (.refl _) (by simp) hinner part hpart
        · next hopen =>
          refine ih hstart (hcrosses.trans (Point.crosses_next hhead)) ?_ h
          intro d hd
          rcases List.mem_append.mp hd with hd | hd
          · exact hcs d hd
          · obtain rfl := List.mem_singleton.mp hd
            refine ⟨by simpa using hquote, fun hbraces => ?_⟩
            simpa [hbraces] using hopen

structure Value.QuotedAt (hasBraces : Bool) (p : Point) (quote : Char) (close : Point) (v : Value) : Prop where
  isQuote : quote = '"' ∨ quote = '\''
  opened : p.rest.head? = some quote
  read : quotedParts hasBraces quote p.next.rest.length p.next.pos p.next = (v.parts, close)
  span : v.span = ⟨p.pos, close.next.pos⟩
  after : (readValue hasBraces p).2 = close.next

theorem exists_quotedAt (h : (readValue hasBraces p).1 = some v) (hquoted : v.isQuoted = true) :
    ∃ quote close, v.QuotedAt hasBraces p quote close := by
  unfold readValue at h
  split at h
  · cases h
  · next c cs hrest =>
    split at h
    · next hquote =>
      cases h
      have hquote' : c = '"' ∨ c = '\'' := by simpa using hquote
      refine ⟨c, _, hquote', by rw [hrest]; rfl, rfl, rfl, ?_⟩
      simp only [readValue, hrest, hquote, if_true]
      rfl
    · split at h
      · cases h
        cases hquoted
      · cases h
        cases hquoted

namespace Value.QuotedAt

theorem next_pos (hhead : p.rest.head? = some quote) (hquote : quote = '"' ∨ quote = '\'') :
    p.next.pos = p.pos + 1 := by
  rw [(Point.crosses_next hhead).pos]
  rcases hquote with rfl | rfl
  · rfl
  · rfl

theorem inside (h : v.QuotedAt hasBraces p quote close) : p.next.pos = p.pos + 1 := next_pos h.opened h.isQuote

theorem tiles (h : v.QuotedAt hasBraces p quote close) : Tiles p.next close v.parts :=
  (quotedParts_tiles (.refl _) (Nat.le_refl _) h.read).1

/-- The closing quote stands behind the parts, or nothing does. -/
theorem ends (h : v.QuotedAt hasBraces p quote close) : (close.rest = [] ∧ close.next = close) ∨
    (close.rest.head? = some quote ∧ close.next.pos = close.pos + 1) := by
  rcases (quotedParts_tiles (.refl _) (Nat.le_refl _) h.read).2 with hnil | hhead
  · exact .inl ⟨hnil, by simp [Point.next, hnil]⟩
  · exact .inr ⟨hhead, next_pos hhead h.isQuote⟩

theorem filled (h : v.QuotedAt hasBraces p quote close) (hp : Leads (.ofText source) p) :
    v.Filled source.toList hasBraces quote close.pos where
  isQuote := h.isQuote
  opened := by
    have hslice := (Point.crosses_next h.opened).slice hp
    rwa [h.inside, show p.pos = v.span.start by rw [h.span]] at hslice
  closed := by
    have hclose : Leads (.ofText source) close := hp.trans (p.leads_next.trans h.tiles.leads)
    rcases h.ends with ⟨hnil, hsame⟩ | ⟨hhead, hpos⟩
    · right
      obtain ⟨text, hcrosses⟩ := hclose
      have hsource : source.toList = text := by
        have hrest := hcrosses.rest
        rwa [hnil, List.append_nil] at hrest
      refine ⟨by rw [h.span, hsame], ?_⟩
      rw [hsource, hcrosses.pos]
      exact Nat.zero_add _
    · left
      have hslice := (Point.crosses_next hhead).slice hclose
      rw [hpos] at hslice
      exact ⟨by rw [h.span, hpos], hslice⟩
  abut := by
    have habut := h.tiles.abut
    rwa [h.inside, show p.pos = v.span.start by rw [h.span]] at habut
  alternate := (quotedParts_row (Nat.le_refl _) h.read).2.2
  parts := quotedParts_readsIn (hp.trans p.leads_next) (.refl _) (by simp) h.read

end Value.QuotedAt

/-! Every range can be cut out. -/

theorem Part.ReadsIn.cuts {part : Part} (h : part.ReadsIn source.toList hasBraces quote) :
    part.span.Cuts source.toList := by
  cases part with
  | text s =>
    obtain ⟨text, hslice, -⟩ := h
    exact Span.cuts_of_slice hslice
  | braces s =>
    obtain ⟨-, text, hslice, -⟩ := h
    exact Span.cuts_of_slice hslice

theorem unquoted_parts (h : (readValue hasBraces p).1 = some v) (hquoted : v.isQuoted = false) :
    ∀ part ∈ v.parts, part.span = v.span := by
  unfold readValue at h
  split at h
  · cases h
  · split at h
    · cases h
      cases hquoted
    · split at h
      · cases h
        simp [Part.span]
      · cases h
        simp [Part.span]

theorem classes_cuts (h : v.ReadFrom hasBraces (.ofText source)) :
    ∀ s ∈ (Finding.classes v).spans, s.Cuts source.toList := by
  obtain ⟨p, hp, hread⟩ := h
  have hvalue : v.span.Cuts source.toList := by
    rw [readValue_span hread]
    exact hp.cuts (readValue_leads hasBraces p)
  refine List.forall_mem_cons.mpr ⟨hvalue, ?_⟩
  rw [List.forall_mem_map]
  intro part hpart
  cases hquoted : v.isQuoted with
  | true =>
    obtain ⟨quote, close, hat⟩ := exists_quotedAt hread hquoted
    exact ((hat.filled hp).parts part hpart).cuts
  | false => rwa [unquoted_parts hread hquoted part hpart]

/-- A value that does not run to the end of the document has its closing quote, if it has any. -/
theorem readValue_content (h : (readValue hasBraces p).1 = some v) (hrest : (readValue hasBraces p).2.rest ≠ []) :
    ∃ q r, Leads p q ∧ Leads q r ∧ v.content = ⟨q.pos, r.pos⟩ := by
  cases hquoted : v.isQuoted with
  | false =>
    refine ⟨p, _, .refl p, readValue_leads hasBraces p, ?_⟩
    rw [Value.content, hquoted, Bool.false_and, if_neg Bool.false_ne_true, readValue_span h]
  | true =>
    obtain ⟨quote, close, hat⟩ := exists_quotedAt h hquoted
    rcases hat.ends with ⟨hnil, hsame⟩ | ⟨-, hpos⟩
    · rw [hat.after, hsame] at hrest
      exact absurd hnil hrest
    · refine ⟨p.next, close, p.leads_next, hat.tiles.leads, ?_⟩
      have hle := hat.tiles.leads.pos_le
      have hstart := hat.inside
      have hsize : 2 ≤ v.span.size := by
        rw [hat.span, hpos, Span.size]
        dsimp only
        omega
      rw [Value.content, hquoted, Bool.true_and, if_pos (decide_eq_true hsize), hat.span, hpos, hstart]
      rfl

/-- An attribute of a tag is read at a point of it. -/
theorem Run.mem_attributes {a : Attribute} (h : Run (nextAttribute? hasBraces) p as q) (ha : a ∈ as) :
    ∃ r, Leads p r ∧ a = (readAttribute hasBraces r).1 ∧ Leads (readAttribute hasBraces r).2 q := by
  obtain ⟨r, r', front, here, back, hfront, hstep, hhere, hback, -⟩ := h.split ha
  obtain ⟨-, -, hread⟩ := nextAttribute?_eq_some hstep
  have hr : Leads p r.skipBlanks := hfront.leads_attributes.trans (r.leads_skip isAsciiBlank)
  unfold attributeStep at hread
  split at hread
  · cases hread
    cases hhere
  · split at hread
    · cases hread
      cases hhere
    · cases hread
      exact ⟨_, hr, List.mem_singleton.mp hhere, hback.leads_attributes⟩

theorem asLang_cuts {a : Attribute} (hp : Leads (.ofText source) p) (h : a = (readAttribute hasBraces p).1)
    (hrest : (readAttribute hasBraces p).2.rest ≠ []) :
    ∀ s ∈ a.asLang.span :: a.asLang.value.toList, s.Cuts source.toList := by
  subst h
  obtain ⟨hstart, r, hr, hstop⟩ := readAttribute_reaches hasBraces p
  refine List.forall_mem_cons.mpr ⟨?_, ?_⟩
  · rw [Attribute.asLang, hstart, hstop]
    exact hp.cuts hr
  · intro s hs
    obtain ⟨v, hv, rfl⟩ := Option.map_eq_some_iff.mp (Option.mem_toList.mp hs)
    have hvalue := hasValue_of_mem (Option.mem_def.mpr hv)
    rw [hvalue.readAttribute_eq] at hv hrest
    obtain ⟨q, r, hq, hr, hcontent⟩ := readValue_content hv hrest
    rw [hcontent]
    have hbehind : Leads p p.behindEquals :=
      (p.leads_skip _).trans (((Point.leads_skip _ _).trans (Point.leads_next _)).trans (Point.leads_skip _ _))
    exact (hp.trans (hbehind.trans hq)).cuts hr

theorem nextAttribute?_eq_none (h : nextAttribute? hasBraces q = none) (hne : q.skipBlanks.rest ≠ []) :
    q.skipBlanks.rest.head? = some '>' := by
  unfold nextAttribute? at h
  split at h
  · next hend => exact hend.resolve_left hne
  · cases h

theorem Point.leads_behindBody (name : List Char) (p : Point) : Leads p (p.behindBody name) := by
  unfold behindBody
  split
  · exact p.leads_find _
  · exact .refl p

theorem body_cuts (hp : Leads (.ofText source) p.inTag) (hrun : Run (nextAttribute? hasBraces) p.inTag as q)
    (hend : nextAttribute? hasBraces q = none) {f : Finding} (hf : ∀ v, f ≠ .classes v)
    (h : f ∈ (tagFound source.toList p.tagName as q).1) : ∀ s ∈ f.spans, s.Cuts source.toList := by
  obtain ⟨hne, hbody⟩ := body_of_tagFound hf h
  have hend := nextAttribute?_eq_none hend hne
  have hblanks : Leads q q.skipBlanks := q.leads_skip isAsciiBlank
  have hq : Leads (.ofText source) q.skipBlanks := hp.trans (hrun.leads_attributes.trans hblanks)
  have hcuts := (hq.trans (Point.leads_next _)).cuts (q.skipBlanks.next.leads_behindBody p.tagName)
  cases f with
  | classes v => exact absurd rfl (hf v)
  | script content dialect =>
    rw [(script_of_bodyFound hbody).1]
    exact List.forall_mem_singleton.mpr hcuts
  | style block =>
    obtain ⟨-, rfl⟩ := style_of_bodyFound hbody
    have htagEnd := hq.cuts (Point.leads_next _)
    rw [(Point.crosses_next hend).pos] at htagEnd
    refine List.forall_mem_cons.mpr ⟨htagEnd, List.forall_mem_cons.mpr ⟨hcuts, ?_⟩⟩
    intro s hs
    obtain ⟨lang, hlang, hs⟩ := List.mem_flatMap.mp hs
    obtain ⟨a, ha, -, rfl⟩ := lang_of_lastLang? (Option.mem_toList.mp hlang)
    obtain ⟨r, hr, hread, hafter⟩ := hrun.mem_attributes ha
    refine asLang_cuts (hp.trans hr) hread ?_ s hs
    -- the tag has an end, so no attribute of it runs to the end of the document
    intro hnil
    have hlength := (hafter.trans hblanks).length_le
    rw [hnil] at hlength
    exact hne (List.length_eq_zero_iff.mp (Nat.le_zero.mp hlength))

/-- Whatever is found is found at a tag. -/
theorem exists_tag_of_mem {f : Finding} (h : f ∈ scan source hasBraces) :
    ∃ p, Leads (.ofText source) p ∧ f ∈ (readTag source.toList hasBraces p).1 := by
  obtain ⟨r, hrun, -⟩ := scan_run source hasBraces
  obtain ⟨p, q, front, here, back, hfront, hstep, hhere, -, -⟩ := hrun.split h
  refine ⟨p, hfront.leads_scan, ?_⟩
  unfold scanNext? at hstep
  split at hstep
  · cases hstep
  · have hstep := Option.some.inj hstep
    unfold scanStep at hstep
    split at hstep
    · cases hstep
      cases hhere
    · split at hstep
      · rw [hstep]
        exact hhere
      · cases hstep
        cases hhere

theorem scan_cuts {f : Finding} (h : f ∈ scan source hasBraces) : ∀ s ∈ f.spans, s.Cuts source.toList := by
  by_cases hf : ∃ v, f = .classes v
  · obtain ⟨v, rfl⟩ := hf
    exact classes_cuts (scan_standing h)
  · obtain ⟨p, hp, hmem⟩ := exists_tag_of_mem h
    obtain ⟨as, q, hrun, hend, htag⟩ := exists_tagFound source.toList hasBraces p
    rw [htag] at hmem
    exact body_cuts (hp.trans (p.leads_next.trans p.leads_inTag)) hrun hend (not_exists.mp hf) hmem

theorem FindingsRow.inOrder {a b : Nat} {found : List Finding} (h : FindingsRow a b found) :
    (∀ f ∈ found, a ≤ f.span.start) ∧ found.Pairwise fun f g => f.span.Before g.span := by
  induction found generalizing a with
  | nil => exact ⟨by simp, .nil⟩
  | cons f found ih =>
    obtain ⟨hstart, hforward, hrest⟩ := h
    obtain ⟨hbehind, hordered⟩ := ih hrest
    refine ⟨List.forall_mem_cons.mpr ⟨hstart, fun g hg => ?_⟩, List.pairwise_cons.mpr ⟨hbehind, hordered⟩⟩
    exact Nat.le_trans hstart (Nat.le_trans hforward.ordered (hbehind g hg))

/-- What a scan finds is orderly in every document. -/
theorem scan_orderly (source : String) (hasBraces : Bool) : Orderly source hasBraces (scan source hasBraces) where
  complete := scan_run source hasBraces
  tags := exists_tagFound source.toList hasBraces
  cuts := fun _ => scan_cuts
  inOrder := by
    obtain ⟨stop, hrow⟩ := scan_row source hasBraces
    exact hrow.inOrder.2
  filled := by
    intro v hv hquoted
    obtain ⟨p, hp, hread⟩ := scan_standing hv
    obtain ⟨quote, close, hat⟩ := exists_quotedAt hread hquoted
    exact ⟨quote, close.pos, hat.filled hp⟩

end ClassSort.Markup
