import ClassSort.Proofs.Markup.Exchanged
import ClassSort.Proofs.Rule.Regrouped

/-!
Rows of texts and expressions as the content of a quoted value. A scan finds the cells of a row between
the quotes if no text in it ends early or opens an expression, and every closed value is read from
such a row. So to put another row between its quotes is to exchange the value for another one.
-/

namespace ClassSort.Grouping

open Markup

def Inert (quote : Char) (text : List Char) : Prop := ∀ c ∈ text, c ≠ quote ∧ c ≠ '\x7b'

structure Plain (quote : Char) (row : Row) : Prop where
  texts : ∀ cell ∈ row, cell.1 = true → cell.2 ≠ "" ∧ Inert quote cell.2.toList
  mustaches : ∀ cell ∈ row, cell.1 = false → IsBraced cell.2.toList
  alternate : row.IsChain fun a b => ¬ (a.1 = true ∧ b.1 = true)

structure Legible (hasBraces : Bool) (quote : Char) (row : Row) : Prop where
  texts : ∀ cell ∈ row, cell.1 = true → cell.2 ≠ "" ∧
    ∀ c ∈ cell.2.toList, c ≠ quote ∧ (hasBraces = true → c ≠ '\x7b')
  mustaches : ∀ cell ∈ row, cell.1 = false → hasBraces = true ∧ IsBraced cell.2.toList
  alternate : row.IsChain fun a b => ¬ (a.1 = true ∧ b.1 = true)

def cellPart (isText : Bool) (s : Span) : Part := if isText then .text s else .braces s

def partsAt : Nat → Row → List Part
  | _, [] => []
  | n, cell :: row =>
    cellPart cell.1 ⟨n, n + byteLength cell.2.toList⟩ :: partsAt (n + byteLength cell.2.toList) row

def withText (text : List Char) (row : Row) : Row :=
  if text = [] then row else (true, String.ofList text) :: row

def quoted (n : Nat) (row : Row) : Value :=
  ⟨⟨n, n + byteLength (shown row).toList + 2⟩, true, partsAt (n + 1) row⟩

variable {hasBraces : Bool} {quote : Char} {row : Row} {text back : List Char} {n fuel start : Nat} {p q : Point}

theorem shown_nil : (shown []).toList = [] := rfl

theorem shown_cons (cell : Bool × String) (row : Row) :
    (shown (cell :: row)).toList = cell.2.toList ++ (shown row).toList := by
  rw [toList_shown, toList_shown, List.flatMap_cons]

theorem length_partsAt (n : Nat) (row : Row) : (partsAt n row).length = row.length := by
  induction row generalizing n with
  | nil => rfl
  | cons cell row ih => rw [partsAt, List.length_cons, List.length_cons, ih]

theorem Plain.tail {cell : Bool × String} (h : Plain quote (cell :: row)) : Plain quote row where
  texts := (List.forall_mem_cons.mp h.texts).2
  mustaches := (List.forall_mem_cons.mp h.mustaches).2
  alternate := h.alternate.tail

theorem Legible.tail {cell : Bool × String} (h : Legible hasBraces quote (cell :: row)) :
    Legible hasBraces quote row where
  texts := (List.forall_mem_cons.mp h.texts).2
  mustaches := (List.forall_mem_cons.mp h.mustaches).2
  alternate := h.alternate.tail

theorem Plain.legible (h : Plain quote row) : Legible true quote row where
  texts := fun cell hcell hkind => (h.texts cell hcell hkind).imp_right
    fun hinert c hc => (hinert c hc).imp_right fun hopen _ => hopen
  mustaches := fun cell hcell hkind => ⟨rfl, h.mustaches cell hcell hkind⟩
  alternate := h.alternate

/-! Reading what is shown. -/

theorem quotedParts_text (start n : Nat) (h : ∀ c ∈ text, c ≠ quote ∧ (hasBraces = true → c ≠ '\x7b'))
    (rest : List Char) (hfuel : (text ++ rest).length ≤ fuel) : ∃ left, rest.length ≤ left ∧
      quotedParts hasBraces quote fuel start ⟨text ++ rest, n⟩ =
        quotedParts hasBraces quote left start ⟨rest, n + byteLength text⟩ := by
  induction text generalizing n fuel with
  | nil => exact ⟨fuel, hfuel, rfl⟩
  | cons c text ih =>
    obtain ⟨⟨hquote, hopen⟩, htext⟩ := List.forall_mem_cons.mp h
    rw [List.cons_append, List.length_cons] at hfuel
    obtain ⟨fuel, rfl⟩ : ∃ m, fuel = m + 1 := ⟨fuel - 1, by omega⟩
    have hless : (text ++ rest).length ≤ fuel := by omega
    obtain ⟨left, hleft, hread⟩ := ih (n + c.utf8Size) htext hless
    refine ⟨left, hleft, ?_⟩
    have hplain : (c == '\x7b' && hasBraces) = false := by
      rw [Bool.and_eq_false_imp, beq_iff_eq]
      exact fun hc => Bool.eq_false_iff.mpr fun hbraces => hopen hbraces hc
    rw [List.cons_append, quotedParts]
    simp only [beq_false_of_ne hquote, hplain, Bool.false_eq_true, if_false]
    rw [byteLength, ← Nat.add_assoc]
    exact hread

theorem quotedParts_braces (hquote : quote = '"' ∨ quote = '\'') (h : IsBraced text) (rest : List Char) :
    quotedParts true quote (fuel + 1) start ⟨text ++ rest, n⟩ =
      (textPart start n ++ .braces ⟨n, n + byteLength text⟩ ::
          (quotedParts true quote fuel (n + byteLength text) ⟨rest, n + byteLength text⟩).1,
        (quotedParts true quote fuel (n + byteLength text) ⟨rest, n + byteLength text⟩).2) := by
  obtain ⟨cs, hcs⟩ := List.head?_eq_some_iff.mp h.opened
  have hpast := h.past rest n
  have hother : ('\x7b' == quote) = false := by
    rcases hquote with rfl | rfl
    · rfl
    · rfl
  rw [hcs, List.cons_append] at hpast ⊢
  rw [quotedParts]
  simp only [hother, hpast, Bool.false_eq_true, if_false, beq_self_eq_true, Bool.and_self, if_true]

theorem textPart_self (n : Nat) : textPart n n = [] := if_neg (Nat.lt_irrefl n)

/-- Up to the closing quote, or to the end of the document, a row is read as it is. -/
theorem Legible.readUpTo (hquote : quote = '"' ∨ quote = '\'') (h : Legible hasBraces quote row) {rest : List Char}
    (hrest : ∀ c ∈ rest.head?, c = quote) (hfuel : ((shown row).toList ++ rest).length ≤ fuel)
    (hstart : start = n ∨ ∀ cell ∈ row.head?, cell.1 = false) :
    quotedParts hasBraces quote fuel start ⟨(shown row).toList ++ rest, n⟩ =
      (textPart start n ++ partsAt n row, ⟨rest, n + byteLength (shown row).toList⟩) := by
  induction row generalizing n fuel start with
  | nil =>
    rw [shown_nil, List.nil_append] at hfuel ⊢
    have hstop : quotedParts hasBraces quote fuel start ⟨rest, n⟩ = (textPart start n, ⟨rest, n⟩) := by
      cases rest with
      | nil => exact quotedParts_end rfl
      | cons c rest =>
        obtain rfl := hrest c rfl
        obtain ⟨fuel, rfl⟩ : ∃ m, fuel = m + 1 := ⟨fuel - 1, by simp only [List.length_cons] at hfuel; omega⟩
        simp [quotedParts]
    rw [hstop, partsAt, List.append_nil, byteLength, Nat.add_zero]
  | cons cell row ih =>
    obtain ⟨isText, s⟩ := cell
    rw [shown_cons, List.append_assoc] at hfuel ⊢
    rw [byteLength_append, ← Nat.add_assoc]
    dsimp only at hfuel ⊢
    cases isText with
    | true =>
      obtain rfl : start = n := hstart.resolve_right fun hhead => Bool.noConfusion (hhead _ rfl)
      obtain ⟨hne, hplain⟩ := h.texts _ List.mem_cons_self rfl
      obtain ⟨left, hleft, hread⟩ := quotedParts_text start start hplain _ hfuel
      have hnext : ∀ cell ∈ row.head?, cell.1 = false := by
        intro next hnext
        obtain ⟨behind, rfl⟩ := List.head?_eq_some_iff.mp hnext
        have happart := (List.isChain_cons_cons.mp h.alternate).1
        simpa using happart
      have hwide := byteLength_pos (by simpa using hne : s.toList ≠ [])
      have hlt : start < start + byteLength s.toList := Nat.lt_add_of_pos_right hwide
      rw [hread, ih h.tail hleft (.inr hnext), textPart_self, textPart, if_pos hlt]
      rfl
    | false =>
      obtain ⟨rfl, hbraced⟩ : hasBraces = true ∧ IsBraced s.toList := h.mustaches _ List.mem_cons_self rfl
      have hlength := List.length_pos_iff.mpr hbraced.closing.ne_nil
      rw [List.length_append] at hfuel
      obtain ⟨fuel, rfl⟩ : ∃ m, fuel = m + 1 := ⟨fuel - 1, by omega⟩
      have hless : ((shown row).toList ++ rest).length ≤ fuel := by omega
      rw [quotedParts_braces hquote hbraced, ih h.tail hless (.inl rfl), textPart_self]
      rfl

/-- Up to the closing quote a row is read as it is. -/
theorem Legible.read (hquote : quote = '"' ∨ quote = '\'') (h : Legible hasBraces quote row) (back : List Char)
    (hfuel : ((shown row).toList ++ quote :: back).length ≤ fuel)
    (hstart : start = n ∨ ∀ cell ∈ row.head?, cell.1 = false) :
    quotedParts hasBraces quote fuel start ⟨(shown row).toList ++ quote :: back, n⟩ =
      (textPart start n ++ partsAt n row, ⟨quote :: back, n + byteLength (shown row).toList⟩) :=
  h.readUpTo hquote (by rintro c ⟨⟩; rfl) hfuel hstart

/-! What is read is shown. -/

theorem partsAt_withText {row : Row} (h : n + byteLength text = start) :
    partsAt n (withText text row) = textPart n start ++ partsAt start row := by
  subst h
  unfold withText
  split
  · next hnil =>
    subst hnil
    simp [byteLength, textPart_self]
  · next hne => simp [partsAt, cellPart, textPart, byteLength_pos hne]

theorem shown_withText (text : List Char) (row : Row) :
    (shown (withText text row)).toList = text ++ (shown row).toList := by
  unfold withText
  split
  · next hnil => rw [hnil, List.nil_append]
  · rw [shown_cons, String.toList_ofList]

theorem Plain.nil (quote : Char) : Plain quote [] :=
  ⟨List.forall_mem_nil _, List.forall_mem_nil _, .nil⟩

theorem Plain.consText {s : String} (h : Plain quote row) (hne : s ≠ "")
    (hs : Inert quote s.toList) (hhead : ∀ cell ∈ row.head?, cell.1 = false) :
    Plain quote ((true, s) :: row) where
  texts := List.forall_mem_cons.mpr ⟨fun _ => ⟨hne, hs⟩, h.texts⟩
  mustaches := List.forall_mem_cons.mpr ⟨fun hkind => (nomatch hkind), h.mustaches⟩
  alternate := by
    refine List.isChain_cons.mpr ⟨?_, h.alternate⟩
    intro cell hcell hboth
    rw [hhead cell hcell] at hboth
    exact nomatch hboth.2

theorem Plain.consMustache {s : String} (h : Plain quote row) (hs : IsBraced s.toList) :
    Plain quote ((false, s) :: row) where
  texts := List.forall_mem_cons.mpr ⟨fun hkind => (nomatch hkind), h.texts⟩
  mustaches := List.forall_mem_cons.mpr ⟨fun _ => hs, h.mustaches⟩
  alternate := List.isChain_cons.mpr ⟨fun _ _ hboth => (nomatch hboth.1), h.alternate⟩

theorem Plain.withText (h : Plain quote row) (htext : Inert quote text)
    (hhead : ∀ cell ∈ row.head?, cell.1 = false) : Plain quote (withText text row) := by
  unfold Grouping.withText
  split
  · exact h
  · next hne => exact h.consText (by simpa using hne) (by simpa using htext) hhead

/-- The parts of a value that is closed are those of a plain row. `text` was read since the last part. -/
theorem quotedParts_plain {parts : List Part} {close : Point} (htext : Crosses p q text)
    (hplain : Inert quote text) (hfuel : q.rest.length ≤ fuel)
    (h : quotedParts true quote fuel p.pos q = (parts, close)) (hclose : close.rest ≠ []) :
    ∃ row, Plain quote row ∧ parts = partsAt p.pos row ∧ Crosses p close (shown row).toList ∧
      close.rest.head? = some quote := by
  induction fuel generalizing p q text parts with
  | zero =>
    cases h
    exact absurd (List.length_eq_zero_iff.mp (Nat.le_zero.mp hfuel)) hclose
  | succ fuel ih =>
    cases hrest : q.rest with
    | nil =>
      rw [quotedParts_end hrest] at h
      cases h
      exact absurd hrest hclose
    | cons c cs =>
      rw [hrest, List.length_cons] at hfuel
      rw [quotedParts, hrest] at h
      dsimp only at h
      by_cases hquote : (c == quote) = true
      · rw [if_pos hquote] at h
        cases h
        refine ⟨withText text [], (Plain.nil quote).withText hplain (by simp), ?_, ?_, ?_⟩
        · rw [partsAt_withText htext.pos.symm, partsAt, List.append_nil]
        · rw [shown_withText, shown_nil, List.append_nil]
          exact htext
        · rw [hrest, eq_of_beq hquote, List.head?_cons]
      · rw [if_neg hquote] at h
        by_cases hbraces : (c == '\x7b' && true) = true
        · rw [if_pos hbraces] at h
          obtain ⟨inner, last, hinner⟩ : ∃ inner last,
              quotedParts true quote fuel q.pastBraces.pos q.pastBraces = (inner, last) := ⟨_, _, rfl⟩
          have hlast := quotedParts_leads hinner
          rw [hinner] at h
          cases h
          have hopen : q.rest.head? = some '\x7b' := by
            rw [Bool.and_true, beq_iff_eq] at hbraces
            rw [hrest, hbraces]
            rfl
          have hpast : q.pastBraces.rest ≠ [] := by
            intro hnil
            have hle := hlast.length_le
            rw [hnil] at hle
            exact hclose (List.length_eq_zero_iff.mp (Nat.le_zero.mp hle))
          obtain ⟨mustache, hbraced, hcrosses⟩ := Point.pastBraces_braced hopen hpast
          have hless := (Point.leads_next_pastBraces hopen).length_lt hrest
          obtain ⟨row, hrow, rfl, hshown, hend⟩ := ih (.refl _) (List.forall_mem_nil _) (by omega) hinner
          refine ⟨withText text ((false, String.ofList mustache) :: row), ?_, ?_, ?_, hend⟩
          · exact (hrow.consMustache (by simpa using hbraced)).withText hplain (by simp)
          · rw [partsAt_withText htext.pos.symm, partsAt, String.toList_ofList, ← hcrosses.pos]
            rfl
          · rw [shown_withText, shown_cons, String.toList_ofList]
            exact htext.trans (hcrosses.trans hshown)
        · rw [if_neg hbraces] at h
          have hnext := Point.crosses_next (p := q) (c := c) (by rw [hrest]; rfl)
          have hless := (Leads.refl q.next).length_lt hrest
          refine ih (htext.trans hnext) ?_ (by omega) h
          intro d hd
          rcases List.mem_append.mp hd with hd | hd
          · exact hplain d hd
          · rw [List.mem_singleton.mp hd]
            exact ⟨fun heq => hquote (by simp [heq]), fun heq => hbraces (by simp [heq])⟩

/-! Values. -/

theorem utf8Size_quote (h : quote = '"' ∨ quote = '\'') : quote.utf8Size = 1 := by
  rcases h with rfl | rfl
  · rfl
  · rfl

theorem readValue_quoted (hquote : quote = '"' ∨ quote = '\'') (h : Legible hasBraces quote row)
    (back : List Char) : readValue hasBraces ⟨quote :: ((shown row).toList ++ quote :: back), n⟩ =
      (some (quoted n row), ⟨back, n + byteLength (shown row).toList + 2⟩) := by
  have hwidth := utf8Size_quote hquote
  have hparts := h.read (n := n + 1) hquote back (Nat.le_refl _) (.inl rfl)
  have hopen : (quote == '"' || quote == '\'') = true := by simpa using hquote
  have hstop : n + 1 + byteLength (shown row).toList + 1 = n + byteLength (shown row).toList + 2 := by omega
  simp only [readValue, readQuoted, hopen, if_true, Point.next, hwidth, hparts, textPart_self,
    List.nil_append, quoted, hstop]

end ClassSort.Grouping

namespace ClassSort.Markup

/-- Both quotes of the value are there. -/
structure Value.EnclosedBy (quote : Char) (source : List Char) (v : Value) : Prop where
  isQuoted : v.isQuoted = true
  opened : sliceChars? source ⟨v.span.start, v.span.start + 1⟩ = some [quote]
  closed : v.IsClosed
  last : sliceChars? source ⟨v.span.stop - 1, v.span.stop⟩ = some [quote]
  apart : v.span.start + 2 ≤ v.span.stop

end ClassSort.Markup

namespace ClassSort.Grouping

open Markup

/-- A document with a plain row between two quotes. -/
structure Holds (source front : List Char) (quote : Char) (row : Row) (back : List Char) : Prop where
  isQuote : quote = '"' ∨ quote = '\''
  plain : Plain quote row
  text : source = front ++ quote :: ((shown row).toList ++ quote :: back)

def moved (v v' : Value) (n : Nat) : Nat := if n < v.span.stop then n else n - v.span.stop + v'.span.stop

variable {g : Script.Grammars} {quote : Char} {row : Row} {cs cs' front back : List Char} {n : Nat} {source : String} {v : Value}

theorem partsAt_stop_le (row : Row) :
    ∀ part ∈ partsAt n row, part.span.stop ≤ n + byteLength (shown row).toList := by
  induction row generalizing n with
  | nil => exact List.forall_mem_nil _
  | cons cell row ih =>
    rw [shown_cons, byteLength_append]
    refine List.forall_mem_cons.mpr ⟨?_, ?_⟩
    · cases h : cell.1 with
      | true => simp [cellPart, Part.span]
      | false => simp [cellPart, Part.span]
    · intro part hpart
      have hle := ih part hpart
      omega

theorem Holds.enclosed (h : Holds cs front quote row back) :
    (quoted (byteLength front) row).EnclosedBy quote cs where
  isQuoted := rfl
  opened := by
    refine sliceChars?_eq_some.mpr ⟨front, (shown row).toList ++ quote :: back, by simp [h.text], rfl, ?_⟩
    simp [quoted, byteLength, utf8Size_quote h.isQuote]
  closed := by
    intro part hpart
    have hle := partsAt_stop_le row part hpart
    show part.span.stop < byteLength front + byteLength (shown row).toList + 2
    omega
  last := by
    refine sliceChars?_eq_some.mpr ⟨front ++ quote :: (shown row).toList, back, by simp [h.text], ?_, ?_⟩
    · simp [quoted, byteLength, byteLength_append, utf8Size_quote h.isQuote]
      omega
    · simp [quoted, byteLength, utf8Size_quote h.isQuote]
  apart := by
    simp only [quoted]
    omega

/-- In front of a closing quote a scan has not come to the end. -/
theorem close_ne_nil {hasBraces : Bool} {fuel start : Nat} {inside close : Point} {parts : List Part}
    (hfuel : inside.rest.length ≤ fuel)
    (hread : quotedParts hasBraces quote fuel inside.pos inside = (parts, close))
    (h : Value.EnclosedBy quote cs ⟨⟨start, close.next.pos⟩, true, parts⟩) (hopen : inside.pos = start + 1) :
    close.rest ≠ [] := by
  intro hnil
  obtain ⟨htiles, -⟩ := quotedParts_tiles (.refl inside) hfuel hread
  have hsame : close.next = close := by simp [Point.next, hnil]
  by_cases hne : parts = []
  · -- only the opening quote is there
    subst hne
    cases htiles
    have hapart := h.apart
    simp only [hsame, hopen] at hapart
    omega
  · obtain ⟨part, hmem, hstop⟩ := htiles.reaches hne
    have hlt := h.closed part hmem
    simp only [hsame, hstop] at hlt
    omega

/-- Every closed value holds a plain row. -/
theorem exists_holds (hread : v.ReadFrom true (.ofText source)) (h : v.EnclosedBy quote source.toList) :
    ∃ front row back, Holds source.toList front quote row back ∧ v = quoted (byteLength front) row := by
  obtain ⟨p, ⟨front, hfront⟩, hread⟩ := hread
  have hsource : source.toList = front ++ p.rest := hfront.rest
  have hpos : p.pos = byteLength front := hfront.pos.trans (Nat.zero_add _)
  unfold readValue at hread
  split at hread
  · cases hread
  · next c cs hrest =>
    split at hread
    · next hquote =>
      obtain ⟨parts, close, hparts⟩ : ∃ parts close,
          quotedParts true c p.next.rest.length p.next.pos p.next = (parts, close) := ⟨_, _, rfl⟩
      simp only [readQuoted, hparts] at hread
      cases hread
      replace hquote : c = '"' ∨ c = '\'' := by simpa using hquote
      have hnext := Point.crosses_next (show p.rest.head? = some c by rw [hrest]; rfl)
      have hopen : p.next.pos = p.pos + 1 := by
        rw [hnext.pos]
        simp [byteLength, utf8Size_quote hquote]
      obtain rfl : c = quote := by
        have hslice := hnext.slice ⟨front, hfront⟩
        rw [hopen] at hslice
        simpa using hslice.symm.trans h.opened
      have hclose := close_ne_nil (Nat.le_refl _) hparts h hopen
      obtain ⟨row, hrow, rfl, hshown, hend⟩ := quotedParts_plain (.refl p.next) (List.forall_mem_nil _)
        (Nat.le_refl _) hparts hclose
      obtain ⟨back, hback⟩ := List.head?_eq_some_iff.mp hend
      refine ⟨front, row, back, ⟨hquote, hrow, ?_⟩, ?_⟩
      · rw [hsource, hnext.rest, hshown.rest, hback]
        rfl
      · have hlast : close.next.pos = p.pos + byteLength (shown row).toList + 2 := by
          rw [(Point.crosses_next hend).pos, hshown.pos, hopen]
          simp only [byteLength, utf8Size_quote hquote]
          omega
        rw [quoted, hlast, hopen, hpos]
    · split at hread
      · cases hread
        cases h.isQuoted
      · cases hread
        cases h.isQuoted

/-! The finding of a value. -/

theorem Holds.inside (h : Holds cs front quote row back) :
    cs = (front ++ [quote]) ++ (shown row).toList ++ quote :: back := by
  simp [h.text]

theorem Holds.start (h : Holds cs front quote row back) :
    byteLength (front ++ [quote]) = byteLength front + 1 := by
  simp only [byteLength_append, byteLength, utf8Size_quote h.isQuote]

theorem Holds.inner (h : Holds cs front quote row back) : (quoted (byteLength front) row).span.inner =
    ⟨byteLength (front ++ [quote]), byteLength (front ++ [quote]) + byteLength (shown row).toList⟩ := by
  have hstop : byteLength front + byteLength (shown row).toList + 2 - 1 =
      byteLength front + 1 + byteLength (shown row).toList := by omega
  rw [h.start, ← hstop]
  rfl

theorem partTexts_partsAt (g : Script.Grammars) (dialect : Script.Dialect)
    (hsource : source.toList = front ++ (shown row).toList ++ back) :
    partTexts source ((partsAt (byteLength front) row).map (Source.part g source.toList dialect)) =
      some row := by
  induction row generalizing front with
  | nil => rfl
  | cons cell row ih =>
    obtain ⟨isText, s⟩ := cell
    rw [shown_cons] at hsource
    have hsplit : source.toList = front ++ s.toList ++ (shown row).toList ++ back := by simpa using hsource
    have hrest := ih hsplit
    have hslice : slice? source ⟨byteLength front, byteLength front + byteLength s.toList⟩ = some s := by
      rw [List.append_assoc] at hsplit
      rw [slice?, sliceChars?_eq_some.mpr ⟨front, _, hsplit, rfl, rfl⟩, Option.map_some, String.ofList_toList]
    rw [byteLength_append] at hrest
    cases isText with
    | true => simp [partsAt, cellPart, Source.part, partTexts, AttributePart.span, hslice, hrest]
    | false => simp [partsAt, cellPart, Source.part, partTexts, AttributePart.span, hslice, hrest]

theorem Holds.partTexts (h : Holds source.toList front quote row back) (g : Script.Grammars) (dialect : Script.Dialect) :
    partTexts source ((quoted (byteLength front) row).parts.map (Source.part g source.toList dialect)) =
      some row := by
  have htexts := partTexts_partsAt g dialect h.inside
  rwa [h.start] at htexts

theorem getLast?_of_isBraced {text : List Char} (h : IsBraced text) : text.getLast? = some '\x7d' := by
  have hpast := h.past ['\x7b'] 0
  obtain ⟨crossed, hcrosses, hlast⟩ := Point.closesAt_pastBraces ⟨text ++ ['\x7b'], 0⟩
  rw [hpast] at hcrosses hlast
  obtain rfl : text = crossed := List.append_cancel_right hcrosses.rest
  exact hlast (List.cons_ne_nil _ _)

theorem isSolid_of_isBraced {text : List Char} (h : IsBraced text) : IsSolid text := by
  refine ⟨h.closing.ne_nil, ?_, ?_⟩
  · intro c hc
    cases h.opened.symm.trans hc
    rfl
  · intro c hc
    cases (getLast?_of_isBraced h).symm.trans hc
    rfl

theorem Plain.grouped_eq (h : Plain quote row) : grouped row = joined (regrouped row) := by
  apply Grouping.grouped_eq
  intro cell hcell
  obtain ⟨hmem, hkind⟩ := List.mem_filter.mp hcell
  exact isSolid_of_isBraced (h.mustaches cell hmem (by simpa using hkind))

/-- There is a finding unless the value has a single part or its text is the one of its groups. -/
theorem Holds.check_eq (h : Holds source.toList front quote row back) {dialect : Script.Dialect} {node : Node}
    (hnode : Source.attribute? g source.toList dialect (.classes (quoted (byteLength front) row)) = some node) :
    check source node =
      if row.length < 2 ∨ joined (regrouped row) = shown row then none
      else some ⟨rule, (quoted (byteLength front) row).span.inner, joined (regrouped row), message⟩ := by
  cases hnode
  have hslice : slice? source (quoted (byteLength front) row).span.inner = some (shown row) := by
    rw [slice?, h.inner, sliceChars?_eq_some.mpr ⟨_, _, h.inside, rfl, rfl⟩, Option.map_some,
      String.ofList_toList]
  have htexts := h.partTexts g dialect
  have hsize : ¬ (quoted (byteLength front) row).span.size < 2 := by
    simp only [quoted, Span.size]
    omega
  have hlength : ((partsAt (byteLength front + 1) row).map (Source.part g source.toList dialect)).length =
      row.length := by
    rw [List.length_map, length_partsAt]
  show check source (.classAttribute _ true ((partsAt _ _).map _)) = _
  rw [check, hlength]
  by_cases hshort : row.length < 2
  · rw [if_pos (by simp [hshort]), if_pos (.inl hshort)]
  · rw [if_neg (by simp [hshort, hsize]), hslice]
    simp only [quoted] at htexts ⊢
    simp only [htexts, Option.bind_eq_bind, Option.bind_some, h.plain.grouped_eq]
    by_cases hsame : joined (regrouped row) = shown row
    · rw [if_pos hsame, if_pos (.inr hsame)]
    · rw [if_neg hsame, if_neg (not_or.mpr ⟨hshort, hsame⟩)]

/-! Another row in the place of the first one. -/

theorem moved_front {v' : Value} (h : n < v.span.stop) : moved v v' n = n := if_pos h

theorem moved_behind (v v' : Value) (n : Nat) : moved v v' (v.span.stop + n) = v'.span.stop + n := by
  rw [moved, if_neg (Nat.not_lt.mpr (Nat.le_add_right _ _)), Nat.add_sub_cancel_left, Nat.add_comm]

theorem Holds.exchanged {row' : Row} (h : Holds cs front quote row back)
    (h' : Holds cs' front quote row' back) :
    Exchanged cs cs' true (moved (quoted (byteLength front) row) (quoted (byteLength front) row'))
      ⟨quote :: ((shown row).toList ++ quote :: back), byteLength front⟩
      ⟨quote :: ((shown row').toList ++ quote :: back), byteLength front⟩
      (quoted (byteLength front) row) (quoted (byteLength front) row') := by
  have hstill : ∀ n ≤ byteLength front,
      moved (quoted (byteLength front) row) (quoted (byteLength front) row') n = n := by
    intro n hn
    apply moved_front
    show n < byteLength front + byteLength (shown row).toList + 2
    omega
  exact {
    exchange := .quoted h.isQuote _ _
    front := by
      refine ⟨front, h.text, h'.text, ?_⟩
      intro n hn
      rw [Nat.zero_add]
      exact hstill n hn
    leads := ⟨front, h.text, (Nat.zero_add _).symm⟩
    leads' := ⟨front, h'.text, (Nat.zero_add _).symm⟩
    read := by rw [readValue_quoted h.isQuote h.plain.legible]
    read' := by rw [readValue_quoted h.isQuote h'.plain.legible]
    fixed := hstill
    behind := by
      rw [readValue_quoted h.isQuote h.plain.legible, readValue_quoted h.isQuote h'.plain.legible]
      exact ⟨back, (List.append_nil _).symm, (List.append_nil _).symm, fun n _ => moved_behind _ _ n⟩ }

end ClassSort.Grouping
