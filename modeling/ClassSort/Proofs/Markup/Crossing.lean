import ClassSort.Markup.Braces

/-!
A scan moves over a document without losing a byte: what lies between the point where a step begins
and the point where it ends is a piece of the text, as wide as the two points are apart.
-/

namespace ClassSort.Markup

/-- The second point lies behind the text that begins at the first one. -/
structure Crosses (p q : Point) (text : List Char) : Prop where
  rest : p.rest = text ++ q.rest
  pos : q.pos = p.pos + byteLength text

def Leads (p q : Point) : Prop := ∃ text, Crosses p q text

instance (priority := high) decidableForallMem (test : Char → Prop) [DecidablePred test] (text : List Char) :
    Decidable (∀ c ∈ text, test c) :=
  List.decidableBAll test text

variable {p q r : Point} {cs ds : List Char}

theorem Crosses.refl (p : Point) : Crosses p p [] := ⟨rfl, rfl⟩

theorem Crosses.trans (h : Crosses p q cs) (h' : Crosses q r ds) : Crosses p r (cs ++ ds) := by
  constructor
  · rw [h.rest, h'.rest, List.append_assoc]
  · rw [h'.pos, h.pos, byteLength_append, Nat.add_assoc]

theorem Leads.refl (p : Point) : Leads p p := ⟨[], .refl p⟩

theorem Leads.trans (h : Leads p q) (h' : Leads q r) : Leads p r := by
  obtain ⟨cs, h⟩ := h
  obtain ⟨ds, h'⟩ := h'
  exact ⟨cs ++ ds, h.trans h'⟩

theorem Leads.pos_le (h : Leads p q) : p.pos ≤ q.pos := by
  obtain ⟨text, h⟩ := h
  rw [h.pos]
  exact Nat.le_add_right _ _

/-- From the beginning of a document the points count its bytes. -/
theorem Crosses.slice {source : String} (h : Leads (.ofText source) p) (h' : Crosses p q cs) :
    sliceChars? source.toList ⟨p.pos, q.pos⟩ = some cs := by
  obtain ⟨before, h⟩ := h
  have hsource : source.toList = before ++ p.rest := h.rest
  have hpos : p.pos = 0 + byteLength before := h.pos
  rw [Nat.zero_add] at hpos
  refine sliceChars?_eq_some.mpr ⟨before, q.rest, ?_, hpos.symm, h'.pos.symm⟩
  rw [hsource, h'.rest, List.append_assoc]

namespace Point

theorem crosses_next {c : Char} (h : p.rest.head? = some c) : Crosses p p.next [c] := by
  cases hrest : p.rest with
  | nil => simp [hrest] at h
  | cons d ds =>
    obtain rfl : d = c := by simpa [hrest] using h
    constructor
    · simp [next, hrest]
    · simp [next, hrest, byteLength]

theorem leads_next (p : Point) : Leads p p.next := by
  cases hrest : p.rest with
  | nil =>
    have hsame : p.next = p := by simp [next, hrest]
    rw [hsame]
    exact .refl p
  | cons c cs => exact ⟨[c], crosses_next (by simp [hrest])⟩

theorem leads_skip (f : Char → Bool) (p : Point) : Leads p (p.skip f) :=
  ⟨p.rest.takeWhile f, List.takeWhile_append_dropWhile.symm, rfl⟩

theorem leads_ahead (n : Nat) (p : Point) : Leads p (p.ahead n) :=
  ⟨p.rest.take n, (List.take_append_drop n p.rest).symm, rfl⟩

theorem leads_findFrom (f : List Char → Bool) (cs : List Char) (n : Nat) :
    Leads ⟨cs, n⟩ (findFrom f cs n) := by
  induction cs generalizing n with
  | nil => exact .refl _
  | cons c cs ih =>
    rw [findFrom]
    split
    · exact .refl _
    · exact (leads_next ⟨c :: cs, n⟩).trans (ih _)

theorem leads_find (f : List Char → Bool) (p : Point) : Leads p (p.find f) := leads_findFrom f _ _

theorem leads_past (mark : List Char) (p : Point) : Leads p (p.past mark) :=
  (leads_find _ p).trans (leads_ahead _ _)

def ClosesAt (p q : Point) : Prop :=
  ∃ text, Crosses p q text ∧ (q.rest ≠ [] → text.getLast? = some '\x7d')

theorem ClosesAt.cons {c : Char} {cs : List Char} {n : Nat} {q : Point}
    (h : ClosesAt ⟨cs, n + c.utf8Size⟩ q) : ClosesAt ⟨c :: cs, n⟩ q := by
  obtain ⟨text, hcrosses, hlast⟩ := h
  refine ⟨c :: text, ?_, ?_⟩
  · exact (crosses_next rfl).trans hcrosses
  · intro hrest
    rw [List.getLast?_cons, hlast hrest]
    rfl

theorem closesAt_closeFrom (inside : Inside) (depth : Nat) (cs : List Char) (n : Nat) :
    ClosesAt ⟨cs, n⟩ (closeFrom inside depth cs n) := by
  fun_induction closeFrom inside depth cs n with
  | case1 => exact ⟨[], .refl _, fun h => absurd rfl h⟩
  | case10 => exact ⟨['\x7d'], crosses_next rfl, fun _ => rfl⟩
  -- one character or two are passed
  | case2 _ _ _ _ _ ih | case5 _ _ _ ih | case7 _ _ _ ih | case8 _ _ _ ih => exact ih.cons.cons
  | case3 _ _ _ _ _ _ ih | case4 _ _ _ _ ih | case6 _ _ _ _ _ ih | case9 _ _ _ ih
  | case11 _ _ _ _ ih | case12 _ _ _ _ _ _ _ _ _ ih => exact ih.cons

theorem closesAt_pastBraces (p : Point) : ClosesAt p p.pastBraces := closesAt_closeFrom _ _ _ _

theorem leads_pastBraces (p : Point) : Leads p p.pastBraces := by
  obtain ⟨text, hcrosses, -⟩ := p.closesAt_pastBraces
  exact ⟨text, hcrosses⟩

theorem ClosesAt.braces (h : ClosesAt p q) (hopen : p.rest.head? = some '\x7b') : ∃ text,
    Crosses p q text ∧ text.head? = some '\x7b' ∧ (q.rest ≠ [] → text.getLast? = some '\x7d') := by
  obtain ⟨text, hcrosses, hlast⟩ := h
  refine ⟨text, hcrosses, ?_, hlast⟩
  cases text with
  | nil =>
    have hsame : p.rest = q.rest := hcrosses.rest
    have hrest : q.rest ≠ [] := by
      intro hnil
      rw [hsame, hnil] at hopen
      cases hopen
    cases hlast hrest
  | cons c text =>
    rw [hcrosses.rest] at hopen
    simpa using hopen

end Point

end ClassSort.Markup
