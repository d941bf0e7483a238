import ClassSort.Proofs.Markup.Written
import Mathlib.Algebra.GroupWithZero.Nat

/-!
A scan finds in a written document what is to be found in it: it runs over the items one by one, over
those with nothing of note just as over the others, and through a tag from attribute to attribute.
-/

namespace ClassSort.Markup

open Grouping (Row Legible shown)
open Script (Dialect)

variable {source : String} {hasBraces : Bool} {text rest : List Char} {n : Nat} {p q : Point}

/-! Moving over a text. -/

theorem Point.find_append {test : List Char → Bool}
    (hnone : ∀ front back, text = front ++ back → back ≠ [] → test (back ++ rest) = false)
    (hstop : test rest = true) : Point.find test ⟨text ++ rest, n⟩ = ⟨rest, n + byteLength text⟩ := by
  have hrest : (Point.findFrom test (text ++ rest) n).rest = rest :=
    findFrom_rest_iff.mpr ⟨hnone, .inr hstop⟩
  obtain ⟨cs, hcrosses⟩ := Point.leads_findFrom test (text ++ rest) n
  have hsame : cs = text := by
    have hsplit := hcrosses.rest
    rw [hrest] at hsplit
    exact (List.append_cancel_right hsplit).symm
  subst hsame
  exact hcrosses.unique ⟨rfl, rfl⟩

theorem takeWhile_append {test : Char → Bool} (htext : ∀ c ∈ text, test c = true)
    (hrest : ∀ c ∈ rest.head?, test c = false) : (text ++ rest).takeWhile test = text := by
  rw [List.takeWhile_append_of_pos htext]
  cases rest with
  | nil => simp
  | cons c rest => simp [hrest c rfl]

theorem Point.skip_append {test : Char → Bool} (htext : ∀ c ∈ text, test c = true)
    (hrest : ∀ c ∈ rest.head?, test c = false) :
    Point.skip test ⟨text ++ rest, n⟩ = ⟨rest, n + byteLength text⟩ := by
  have htaken := takeWhile_append htext hrest
  have hdropped : (text ++ rest).dropWhile test = rest := by
    have hall := List.takeWhile_append_dropWhile (p := test) (l := text ++ rest)
    rw [htaken] at hall
    exact List.append_cancel_left hall
  rw [Point.skip, htaken, hdropped]

theorem Point.skipBlanks_self (h : ∀ c ∈ rest.head?, isAsciiBlank c = false) :
    Point.skipBlanks ⟨rest, n⟩ = ⟨rest, n⟩ :=
  Point.skip_append (List.forall_mem_nil _) h

/-! Items with nothing of note. -/

theorem scanStep_quiet {c : Char} (hc : p.rest.head? = some c) (htag : c ≠ '<')
    (hbraces : hasBraces = true → c ≠ '\x7b') : scanStep source.toList hasBraces p = ([], p.next) := by
  obtain ⟨cs, hrest⟩ := List.head?_eq_some_iff.mp hc
  have hsees : p.sees "<!--".toList = false := by
    rw [Point.sees, hrest]
    simp [List.isPrefixOf, beq_false_of_ne htag.symm]
  have hopens : opensTag p.rest = false := by
    rw [opensTag, hc]
    simp [htag]
  have hplain : (p.rest.head? == some '\x7b' && hasBraces) = false := by
    rw [Bool.and_eq_false_imp, beq_iff_eq, hc]
    exact fun hopen => Bool.eq_false_iff.mpr fun h => hbraces h (Option.some.inj hopen)
  rw [scanStep, hsees, hopens, hplain]
  rfl

theorem scanNext?_of_cons {c : Char} {cs : List Char} (h : p.rest = c :: cs) :
    scanNext? source.toList hasBraces p = some (scanStep source.toList hasBraces p) := by
  rw [scanNext?, if_neg]
  rw [h]
  exact List.cons_ne_nil c cs

theorem Quiet.run (h : Quiet hasBraces text) (rest : List Char) (n : Nat) :
    Run (scanNext? source.toList hasBraces) ⟨text ++ rest, n⟩ [] ⟨rest, n + byteLength text⟩ := by
  induction text generalizing n with
  | nil => exact .refl _
  | cons c text ih =>
    obtain ⟨⟨htag, hbraces⟩, htext⟩ := List.forall_mem_cons.mp h
    rw [byteLength, ← Nat.add_assoc]
    have hstep : scanNext? source.toList hasBraces ⟨c :: (text ++ rest), n⟩ =
        some ([], ⟨text ++ rest, n + c.utf8Size⟩) := by
      rw [scanNext?_of_cons rfl, scanStep_quiet rfl htag hbraces]
      rfl
    exact .step hstep (ih htext (n + c.utf8Size))

theorem comment_run (h : ¬ "-->".toList <:+: text) (rest : List Char) (n : Nat) :
    Run (scanNext? source.toList hasBraces) ⟨"<!--".toList ++ (text ++ "-->".toList) ++ rest, n⟩ []
      ⟨rest, n + byteLength ("<!--".toList ++ (text ++ "-->".toList))⟩ := by
  have hnone : ∀ front back, text = front ++ back → back ≠ [] →
      "-->".toList.isPrefixOf (back ++ ("-->".toList ++ rest)) = false := by
    intro front back htext hne
    rw [Bool.eq_false_iff]
    intro hmark
    match back with
    | [] => exact hne rfl
    | [_] => simp at hmark
    | [_, _] => simp at hmark
    | a :: b :: c :: back =>
      refine h ⟨front, back, ?_⟩
      obtain ⟨rfl, rfl, rfl⟩ : '-' = a ∧ '-' = b ∧ '>' = c := by simpa using hmark
      simp [htext]
  have hfind : Point.find "-->".toList.isPrefixOf ⟨text ++ ("-->".toList ++ rest), n + 4⟩ =
      ⟨"-->".toList ++ rest, n + 4 + byteLength text⟩ := Point.find_append hnone rfl
  have hpast : (Point.ahead 4 ⟨"<!--".toList ++ (text ++ "-->".toList) ++ rest, n⟩).past "-->".toList =
      ⟨rest, n + byteLength ("<!--".toList ++ (text ++ "-->".toList))⟩ := by
    have hahead : Point.ahead 4 ⟨"<!--".toList ++ (text ++ "-->".toList) ++ rest, n⟩ =
        ⟨text ++ ("-->".toList ++ rest), n + 4⟩ := by
      simp only [List.append_assoc]
      rfl
    rw [hahead, Point.past, hfind, byteLength_append, byteLength_append, ← Nat.add_assoc, ← Nat.add_assoc]
    rfl
  have hsees : Point.sees "<!--".toList ⟨"<!--".toList ++ (text ++ "-->".toList) ++ rest, n⟩ = true := rfl
  apply Run.single
  rw [scanNext?, if_neg (by simp), scanStep, if_pos hsees, hpast]

theorem endTag_run (h : Quiet hasBraces text) (rest : List Char) (n : Nat) :
    Run (scanNext? source.toList hasBraces) ⟨endTagText text ++ rest, n⟩ []
      ⟨rest, n + byteLength (endTagText text)⟩ := by
  have hquiet : Quiet hasBraces ('/' :: (text ++ ['>'])) := by
    refine List.forall_mem_cons.mpr ⟨⟨by decide, fun _ => by decide⟩, fun c hc => ?_⟩
    rcases List.mem_append.mp hc with hc | hc
    · exact h c hc
    · obtain rfl := List.mem_singleton.mp hc
      exact ⟨by decide, fun _ => by decide⟩
  have hstep : scanNext? source.toList hasBraces ⟨endTagText text ++ rest, n⟩ =
      some ([], ⟨'/' :: (text ++ ['>']) ++ rest, n + 1⟩) := by
    rw [scanNext?_of_cons rfl]
    rfl
  have hrun := Run.step hstep (hquiet.run rest (n + 1))
  rw [endTagText, byteLength, ← Nat.add_assoc]
  exact hrun

theorem IsFlat.braced (h : IsFlat text) : IsBraced (Markup.braced text) where
  opened := rfl
  closing := by
    intro rest n
    have hends := h.ends rest n
    have hsize : byteLength (Markup.braced text) = byteLength text + 2 := by
      have hwidth : '\x7b'.utf8Size = 1 ∧ '\x7d'.utf8Size = 1 := ⟨rfl, rfl⟩
      simp only [Markup.braced, byteLength, byteLength_append, hwidth]
      omega
    rw [hsize, Markup.braced, List.cons_append, List.append_assoc]
    exact hends

theorem braces_run (h : IsFlat text) (rest : List Char) (n : Nat) :
    Run (scanNext? source.toList true) ⟨braced text ++ rest, n⟩ [] ⟨rest, n + byteLength (braced text)⟩ := by
  apply Run.single
  rw [scanNext?_of_cons rfl, scanStep]
  exact congrArg (fun q : Point => some (([] : List Finding), q)) (h.braced.past rest n)

/-! Attributes. -/

/-- What may follow an attribute: white space or the end of the tag, and no equals sign behind it. -/
structure Delimits (cs : List Char) : Prop where
  ends : ∃ c ∈ cs.head?, endsBareValue c = true
  unassigned : ∀ n, (Point.skipBlanks ⟨cs, n⟩).rest.head? ≠ some '='

theorem Delimits.endsName (h : Delimits rest) : ∀ c ∈ rest.head?, endsName c = true := by
  obtain ⟨d, hd, hends⟩ := h.ends
  intro c hc
  obtain rfl : d = c := Option.some.inj (hd.symm.trans hc)
  unfold endsBareValue at hends
  unfold Markup.endsName
  rcases (Bool.or_eq_true _ _).mp hends with hblank | hlast
  · simp [hblank]
  · simp [hlast]

theorem delimits_end {blanks : List Char} (h : ∀ c ∈ blanks, isAsciiBlank c = true) (rest : List Char) :
    Delimits (blanks ++ '>' :: rest) where
  ends := by
    cases blanks with
    | nil => exact ⟨'>', rfl, rfl⟩
    | cons c blanks => exact ⟨c, rfl, by simp [endsBareValue, h c List.mem_cons_self]⟩
  unassigned := by
    intro n
    have hskip : Point.skipBlanks ⟨blanks ++ '>' :: rest, n⟩ = ⟨'>' :: rest, n + byteLength blanks⟩ :=
      Point.skip_append h (by simp [isAsciiBlank])
    rw [hskip]
    simp

namespace WrittenAttribute

variable {a : WrittenAttribute} {as : List WrittenAttribute}

theorem WellFormed.name_eq_cons (h : a.WellFormed hasBraces) : ∃ c cs, a.name = c :: cs ∧ endsName c = false ∧
    (hasBraces = true → c ≠ '\x7b') := by
  obtain ⟨c, hc, hopen⟩ := h.named
  obtain ⟨cs, hname⟩ := List.head?_eq_some_iff.mp hc
  exact ⟨c, cs, hname, h.name c (by rw [hname]; exact List.mem_cons_self), hopen⟩

theorem not_blank {c : Char} (h : endsName c = false) : isAsciiBlank c = false := by
  unfold endsName at h
  simp only [Bool.or_eq_false_iff] at h
  exact h.1.1.1

/-- Behind the white space in front of it. -/
theorem WellFormed.skipBlanks (h : a.WellFormed hasBraces) (rest : List Char) (n : Nat) :
    Point.skipBlanks ⟨a.text ++ rest, n⟩ = ⟨a.name ++ (a.assigned ++ rest), n + byteLength a.blanks⟩ := by
  obtain ⟨c, cs, hname, hends, -⟩ := h.name_eq_cons
  have hhead : ∀ d ∈ (a.name ++ (a.assigned ++ rest)).head?, isAsciiBlank d = false := by
    rw [hname]
    intro d hd
    obtain rfl : c = d := Option.some.inj hd
    exact not_blank hends
  have hskip := Point.skip_append (n := n) h.blanks hhead
  rw [text, List.append_assoc, List.append_assoc]
  exact hskip

theorem WellFormed.delimits (h : a.WellFormed hasBraces) (rest : List Char) : Delimits (a.text ++ rest) where
  ends := by
    obtain ⟨c, cs, hblanks⟩ := List.exists_cons_of_ne_nil h.apart
    refine ⟨c, by simp [text, hblanks], ?_⟩
    simp [endsBareValue, h.blanks c (by simp [hblanks])]
  unassigned := by
    intro n
    obtain ⟨c, cs, hname, hends, -⟩ := h.name_eq_cons
    rw [h.skipBlanks, hname]
    rintro heq
    obtain rfl := Option.some.inj heq
    cases hends

end WrittenAttribute

theorem delimits_attributes {as : List WrittenAttribute} (has : ∀ a ∈ as, a.WellFormed hasBraces)
    (hrest : Delimits rest) : Delimits (attributesText as ++ rest) := by
  cases as with
  | nil => exact hrest
  | cons a as =>
    rw [attributesText, List.flatMap_cons, List.append_assoc]
    exact (has a List.mem_cons_self).delimits _

theorem Spelled.legible {quote : Char} {row : Row} (h : Spelled hasBraces quote row) :
    Legible hasBraces quote row where
  texts := h.texts
  mustaches := by
    intro cell hcell hkind
    obtain ⟨hbraces, content, hflat, htext⟩ := h.expressions cell hcell hkind
    exact ⟨hbraces, htext ▸ hflat.braced⟩
  alternate := h.alternate

namespace WrittenValue

variable {v : WrittenValue}

/-- A value is read as it is written. -/
theorem WellFormed.read (h : v.WellFormed hasBraces) (hrest : ∃ c ∈ rest.head?, endsBareValue c = true) (n : Nat) :
    readValue hasBraces ⟨v.text ++ rest, n⟩ = (some (v.value n), ⟨rest, n + byteLength v.text⟩) := by
  cases v with
  | quoted quote row =>
    obtain ⟨hquote, hrow⟩ := h
    have hread := Grouping.readValue_quoted (n := n) hquote hrow.legible rest
    have hsize : byteLength (text (.quoted quote row)) = byteLength (shown row).toList + 2 := by
      simp [text, byteLength, byteLength_append, Grouping.utf8Size_quote hquote]
      omega
    rw [hsize, ← Nat.add_assoc]
    simpa [text, value] using hread
  | plain text =>
    obtain ⟨hplain, c, hc, hdouble, hsingle, hopen⟩ := h
    have hskip : Point.skip (!endsBareValue ·) ⟨text ++ rest, n⟩ = ⟨rest, n + byteLength text⟩ := by
      refine Point.skip_append (by simpa using hplain) ?_
      obtain ⟨d, hd, hends⟩ := hrest
      intro e he
      obtain rfl : d = e := Option.some.inj (hd.symm.trans he)
      simp [hends]
    obtain ⟨cs, rfl⟩ := List.head?_eq_some_iff.mp hc
    have hquote : (c == '"' || c == '\'') = false := by simp [hdouble, hsingle]
    have hbraces : (c == '\x7b' && hasBraces) = false := by
      rw [Bool.and_eq_false_imp, beq_iff_eq]
      exact fun hopened => Bool.eq_false_iff.mpr fun h => hopen h hopened
    simp only [WrittenValue.text, List.cons_append, readValue, hquote, hbraces, Bool.false_eq_true, if_false]
    simp only [← List.cons_append, hskip]
    rfl
  | braces content =>
    obtain ⟨rfl, hflat⟩ := h
    have hpast := hflat.braced.past rest n
    simp only [WrittenValue.text, braced, List.cons_append] at hpast ⊢
    simp only [readValue, hpast, value, braced]
    rfl

/-- A value begins with no white space. -/
theorem WellFormed.head (h : v.WellFormed hasBraces) (rest : List Char) :
    ∀ c ∈ (v.text ++ rest).head?, isAsciiBlank c = false := by
  cases v with
  | quoted quote row =>
    rintro c ⟨⟩
    rcases h.1 with rfl | rfl
    · rfl
    · rfl
  | plain text =>
    obtain ⟨hplain, c, hc, -⟩ := h
    obtain ⟨cs, rfl⟩ := List.head?_eq_some_iff.mp hc
    rintro d ⟨⟩
    have hends := hplain c List.mem_cons_self
    unfold endsBareValue at hends
    exact ((Bool.or_eq_false_iff).mp hends).1
  | braces content =>
    rintro c ⟨⟩
    rfl

/-- Without its quotes the value reads as what stands between them. -/
theorem WellFormed.slice (h : v.WellFormed hasBraces) (front back : List Char) :
    sliceChars? (front ++ (v.text ++ back)) (v.value (byteLength front)).content = some v.content := by
  cases v with
  | quoted quote row =>
    have hquote := Grouping.utf8Size_quote h.1
    have hcontent : (value (byteLength front) (.quoted quote row)).content =
        ⟨byteLength front + 1, byteLength front + 1 + byteLength (shown row).toList⟩ := by
      have hsize : 2 ≤ (Grouping.quoted (byteLength front) row).span.size := by
        simp only [Grouping.quoted, Span.size]
        omega
      have hstop : byteLength front + byteLength (shown row).toList + 2 - 1 =
          byteLength front + 1 + byteLength (shown row).toList := by omega
      have hwide : ((Grouping.quoted (byteLength front) row).isQuoted &&
          decide (2 ≤ (Grouping.quoted (byteLength front) row).span.size)) = true := decide_eq_true hsize
      rw [value, Value.content, if_pos hwide, Grouping.quoted, Span.inner, hstop]
    rw [hcontent]
    refine sliceChars?_eq_some.mpr ⟨front ++ [quote], quote :: back, ?_, ?_, rfl⟩
    · simp [text, content]
    · simp [byteLength_append, byteLength, hquote]
  | plain text =>
    exact sliceChars?_eq_some.mpr ⟨front, back, by simp [WrittenValue.text, content], rfl, rfl⟩
  | braces inside =>
    exact sliceChars?_eq_some.mpr ⟨front, back, by simp [WrittenValue.text, content], rfl, rfl⟩

end WrittenValue

theorem Point.skipBlanks_idem (p : Point) : p.skipBlanks.skipBlanks = p.skipBlanks := p.skip_skip isAsciiBlank

namespace WrittenAttribute

variable {a : WrittenAttribute} {as : List WrittenAttribute}

/-- The name of an attribute ends where its value is assigned, or where the attribute ends. -/
theorem assigned_endsName (hrest : Delimits rest) (a : WrittenAttribute) :
    ∀ d ∈ (a.assigned ++ rest).head?, (!Markup.endsName d) = false := by
  unfold assigned
  cases a.value with
  | none =>
    intro d hd
    simp [hrest.endsName d hd]
  | some v =>
    rintro d ⟨⟩
    rfl

theorem sees_equals (hrest : Delimits rest) (n : Nat) : (Point.skipBlanks ⟨rest, n⟩).sees ['='] = false := by
  rw [Point.sees, Bool.eq_false_iff]
  intro hsees
  obtain ⟨behind, hbehind⟩ := List.isPrefixOf_iff_prefix.mp hsees
  exact hrest.unassigned n (by rw [← hbehind]; rfl)

/-- The value is read right behind the equals sign. -/
theorem assigned_read {v : WrittenValue} (hv : v.WellFormed hasBraces) (hrest : Delimits rest) (n : Nat) :
    Point.sees ['='] (Point.skipBlanks ⟨'=' :: (v.text ++ rest), n⟩) = true ∧
      readValue hasBraces (Point.skipBlanks ⟨'=' :: (v.text ++ rest), n⟩).next.skipBlanks =
        (some (v.value (n + 1)), ⟨rest, n + 1 + byteLength v.text⟩) := by
  have hequals : Point.skipBlanks ⟨'=' :: (v.text ++ rest), n⟩ = ⟨'=' :: (v.text ++ rest), n⟩ :=
    Point.skipBlanks_self (by rintro d ⟨⟩; rfl)
  have hnext : (Point.next ⟨'=' :: (v.text ++ rest), n⟩).skipBlanks = ⟨v.text ++ rest, n + 1⟩ :=
    Point.skipBlanks_self (hv.head rest)
  rw [hequals, hnext, hv.read hrest.ends]
  exact ⟨by simp [Point.sees], rfl⟩

/-- An attribute is read as it is written. Behind one without a value white space is skipped. -/
theorem WellFormed.read (h : a.WellFormed hasBraces) (hrest : Delimits rest) (n : Nat) :
    ∃ q, readAttribute hasBraces ⟨a.name ++ (a.assigned ++ rest), n⟩ = (a.named n, q) ∧
      q.skipBlanks = Point.skipBlanks ⟨rest, n + byteLength a.name + byteLength a.assigned⟩ := by
  obtain ⟨c, cs, hname, hends, -⟩ := h.name_eq_cons
  have hassigned := assigned_endsName hrest a
  have hletters : ∀ d ∈ a.name, (!Markup.endsName d) = true := by simpa using h.name
  have htaken := takeWhile_append hletters hassigned
  have hbehind := Point.skip_append (n := n) hletters hassigned
  have hnonempty : a.name.isEmpty = false := by rw [hname]; rfl
  unfold readAttribute
  simp only [htaken, hbehind, hnonempty, Bool.false_eq_true, if_false]
  cases hvalue : a.value with
  | none =>
    have hnothing : a.assigned = [] := by rw [assigned, hvalue]
    rw [hnothing, List.nil_append, sees_equals hrest]
    refine ⟨_, ?_, Point.skipBlanks_idem _⟩
    rw [WrittenAttribute.named, hvalue]
    rfl
  | some v =>
    have hassigned : a.assigned = '=' :: v.text := by rw [assigned, hvalue]
    obtain ⟨hsees, hread⟩ := assigned_read (h.value v hvalue) hrest (n + byteLength a.name)
    rw [hassigned, List.cons_append, hsees, if_pos rfl, hread]
    refine ⟨⟨rest, n + byteLength a.name + 1 + byteLength v.text⟩, ?_, ?_⟩
    · rw [WrittenAttribute.named, hvalue]
      rfl
    · rw [byteLength, ← Nat.add_assoc]
      rfl

/-- One step through the tag. -/
theorem WellFormed.next (h : a.WellFormed hasBraces) (hrest : Delimits rest)
    (hp : p.skipBlanks = Point.skipBlanks ⟨a.text ++ rest, n⟩) : ∃ q,
      nextAttribute? hasBraces p = some ([a.named (n + byteLength a.blanks)], q) ∧
        q.skipBlanks = Point.skipBlanks ⟨rest, n + byteLength a.text⟩ := by
  obtain ⟨c, cs, hname, hends, hopen⟩ := h.name_eq_cons
  obtain ⟨q, hread, hq⟩ := h.read hrest (n + byteLength a.blanks)
  have hhead : p.skipBlanks.rest.head? = some c := by
    rw [hp, h.skipBlanks, hname]
    rfl
  refine ⟨q, ?_, ?_⟩
  · unfold endsName at hends
    simp only [Bool.or_eq_false_iff, beq_eq_false_iff_ne] at hends
    obtain ⟨⟨⟨-, -⟩, hend⟩, hslash⟩ := hends
    have hne : p.skipBlanks.rest ≠ [] := by
      intro hnil
      rw [hnil] at hhead
      cases hhead
    rw [nextAttribute?, if_neg (by simp [hne, hhead, hend]), attributeStep, if_neg (by simp [hhead, hslash]),
      if_neg, hp, h.skipBlanks, hread]
    rintro ⟨hbrace, hbraces⟩
    rw [hhead] at hbrace
    exact hopen hbraces (Option.some.inj hbrace)
  · rw [hq, text, byteLength_append, byteLength_append, ← Nat.add_assoc, ← Nat.add_assoc]

end WrittenAttribute

/-- Through all attributes of a tag. -/
theorem attributes_run {as : List WrittenAttribute} (has : ∀ a ∈ as, a.WellFormed hasBraces)
    (hrest : Delimits rest) (hp : p.skipBlanks = Point.skipBlanks ⟨attributesText as ++ rest, n⟩) :
    ∃ q, Run (nextAttribute? hasBraces) p (attributesAt n as) q ∧
      q.skipBlanks = Point.skipBlanks ⟨rest, n + byteLength (attributesText as)⟩ := by
  induction as generalizing p n with
  | nil => exact ⟨p, .refl p, hp⟩
  | cons a as ih =>
    obtain ⟨ha, has⟩ := List.forall_mem_cons.mp has
    rw [attributesText, List.flatMap_cons, List.append_assoc] at hp
    obtain ⟨q, hstep, hq⟩ := ha.next (delimits_attributes has hrest) hp
    obtain ⟨r, hrun, hr⟩ := ih has hq
    refine ⟨r, .step hstep hrun, ?_⟩
    rw [hr, attributesText, attributesText, List.flatMap_cons, byteLength_append, Nat.add_assoc]

/-! Tags. -/

theorem not_tagLetter {c : Char} (h : endsBareValue c = true) : isTagLetter c = false := by
  simp only [endsBareValue, isAsciiBlank, Bool.or_eq_true, beq_iff_eq] at h
  rcases h with ((((rfl | rfl) | rfl) | rfl) | rfl) | rfl <;> rfl

theorem scanStep_tag {c : Char} {cs : List Char} (hrest : p.rest = '<' :: c :: cs) (hc : c.isAlpha = true) :
    scanStep source.toList hasBraces p = readTag source.toList hasBraces p := by
  have hsees : p.sees "<!--".toList = false := by
    have hne : ('!' == c) = false := by
      rw [beq_eq_false_iff_ne]
      rintro rfl
      cases hc
    rw [Point.sees, hrest]
    simp [List.isPrefixOf, hne]
  have hopens : opensTag p.rest = true := by
    rw [hrest]
    simp [opensTag, hc]
  rw [scanStep, hsees, if_neg Bool.false_ne_true, hopens, if_pos rfl]

/-- The name of a tag and what is inside of it. -/
theorem Point.inTag_append {name : List Char} (hname : ∀ c ∈ name, isTagLetter c = true)
    (hrest : ∀ c ∈ rest.head?, isTagLetter c = false) (n : Nat) :
    Point.inTag ⟨'<' :: (name ++ rest), n⟩ = ⟨rest, n + 1 + byteLength name⟩ ∧
      Point.tagName ⟨'<' :: (name ++ rest), n⟩ = name.map Char.toLower :=
  ⟨Point.skip_append hname hrest, congrArg (List.map Char.toLower) (takeWhile_append hname hrest)⟩

theorem tagFound_end {name : List Char} {as : List Attribute} {cs : List Char} {m : Nat}
    (hq : q.skipBlanks = ⟨'>' :: rest, m⟩) : tagFound cs name as q =
      (classesFound name as ++ bodyFound cs name as m ⟨m + 1, (Point.behindBody name ⟨rest, m + 1⟩).pos⟩,
        Point.behindBody name ⟨rest, m + 1⟩) := by
  rw [tagFound, hq]
  rfl

namespace WrittenTag

variable {tag : WrittenTag}

theorem text_append (tag : WrittenTag) (rest : List Char) : tag.text ++ rest =
    '<' :: (tag.name ++ (attributesText tag.attributes ++ (tag.blanks ++ '>' :: rest))) := by
  simp [text]

theorem byteLength_text (tag : WrittenTag) : byteLength tag.text =
    1 + byteLength tag.name + byteLength (attributesText tag.attributes) + byteLength tag.blanks + 1 := by
  have hwidth : '<'.utf8Size = 1 ∧ '>'.utf8Size = 1 := ⟨rfl, rfl⟩
  simp only [text, byteLength, byteLength_append, hwidth]
  omega

/-- A tag is read as it is written. -/
theorem WellFormed.read (h : tag.WellFormed hasBraces) (source rest : List Char) (n : Nat) :
    ∃ q m, readTag source hasBraces ⟨tag.text ++ rest, n⟩ = tagFound source tag.lower (tag.attributesAt n) q ∧
      q.skipBlanks = ⟨'>' :: rest, m⟩ ∧ m + 1 = n + byteLength tag.text := by
  have hdelimits := delimits_end h.blanks rest
  have hbehind := delimits_attributes h.attributes hdelimits
  have hletters : ∀ c ∈ (attributesText tag.attributes ++ (tag.blanks ++ '>' :: rest)).head?,
      isTagLetter c = false := by
    obtain ⟨d, hd, hends⟩ := hbehind.ends
    intro c hc
    obtain rfl : d = c := Option.some.inj (hd.symm.trans hc)
    exact not_tagLetter hends
  obtain ⟨hinside, hname⟩ := Point.inTag_append h.name hletters n
  rw [← tag.text_append] at hinside hname
  obtain ⟨q, hrun, hq⟩ := attributes_run h.attributes hdelimits (congrArg Point.skipBlanks hinside)
  have hend : q.skipBlanks = ⟨'>' :: rest, n + 1 + byteLength tag.name +
      byteLength (attributesText tag.attributes) + byteLength tag.blanks⟩ := by
    rw [hq]
    exact Point.skip_append h.blanks (by rintro c ⟨⟩; rfl)
  have hstop : nextAttribute? hasBraces q = none := by
    rw [nextAttribute?, hend]
    simp
  refine ⟨q, _, ?_, hend, ?_⟩
  · rw [hrun.readTag_found hstop, hname]
    rfl
  · rw [tag.byteLength_text]
    omega

theorem WellFormed.step (h : tag.WellFormed hasBraces) (rest : List Char) (n : Nat) :
    scanNext? source.toList hasBraces ⟨tag.text ++ rest, n⟩ =
      some (readTag source.toList hasBraces ⟨tag.text ++ rest, n⟩) := by
  obtain ⟨c, hc, halpha⟩ := h.named
  obtain ⟨cs, hname⟩ := List.head?_eq_some_iff.mp hc
  have htext : ∃ ds, tag.text ++ rest = '<' :: c :: ds := ⟨_, by rw [tag.text_append, hname]; rfl⟩
  obtain ⟨ds, htext⟩ := htext
  rw [htext, scanNext?_of_cons rfl, scanStep_tag rfl halpha]

theorem classesFound_eq (tag : WrittenTag) (n : Nat) :
    classesFound tag.lower (tag.attributesAt n) = tag.classesAt n := by
  simp only [classesFound, classesAt, beq_iff_eq]

theorem WellFormed.startTag_run (h : tag.WellFormed hasBraces) (hscript : tag.lower ≠ "script".toList)
    (hstyle : tag.lower ≠ "style".toList) (rest : List Char) (n : Nat) :
    Run (scanNext? source.toList hasBraces) ⟨tag.text ++ rest, n⟩ (tag.classesAt n)
      ⟨rest, n + byteLength tag.text⟩ := by
  obtain ⟨q, m, hread, hq, hm⟩ := h.read source.toList rest n
  apply Run.single
  rw [h.step, hread, tagFound_end hq, tag.classesFound_eq, Point.behindBody, bodyFound, hm,
    beq_false_of_ne hscript, beq_false_of_ne hstyle]
  simp

end WrittenTag

/-! Scripts. -/

theorem scriptDialect_eq (name : List Char) (value : String) (d : Option Dialect) : scriptDialect name value d =
    if isNoScript (name, value) then none
    else if isTypeScript (name, value) then d.map fun _ => .typeScript else d := by
  unfold scriptDialect isNoScript isTypeScript
  by_cases hlang : name = "lang".toList
  · subst hlang
    simp
  · by_cases htype : name = "type".toList
    · subst htype
      by_cases hjavaScript : ["", "module", "text/javascript", "application/javascript"].contains value = true
      · simp at hjavaScript
        rcases hjavaScript with rfl | rfl | rfl | rfl <;> simp
      · simp at hjavaScript
        by_cases htypeScript : value = "text/typescript" ∨ value = "application/typescript"
        · rcases htypeScript with rfl | rfl <;> simp
        · simp [hjavaScript, htypeScript]
    · simp only [beq_false_of_ne hlang, beq_false_of_ne htype, Bool.false_and, Bool.or_self,
        Bool.false_eq_true, if_false]

theorem foldl_scriptDialect (settings : List (List Char × String)) (d : Option Dialect) :
    settings.foldl (fun d s => scriptDialect s.1 s.2 d) d =
      if settings.any isNoScript then none
      else if settings.any isTypeScript then d.map fun _ => .typeScript else d := by
  induction settings generalizing d with
  | nil => rfl
  | cons s settings ih =>
    rw [List.foldl_cons, ih, scriptDialect_eq, List.any_cons, List.any_cons]
    cases isNoScript s <;> cases isTypeScript s <;> cases settings.any isNoScript <;>
      cases settings.any isTypeScript <;> cases d <;> rfl

/-- The setting that an attribute is. -/
theorem WrittenAttribute.WellFormed.dialect {a : WrittenAttribute} (h : a.WellFormed hasBraces)
    (front back : List Char) (d : Option Dialect) :
    (a.named (byteLength front + byteLength a.blanks)).dialect (front ++ (a.text ++ back)) d =
      (a.value.map fun v => (a.name, String.ofList v.content)).toList.foldl
        (fun d s => scriptDialect s.1 s.2 d) d := by
  unfold Attribute.dialect WrittenAttribute.named
  cases hvalue : a.value with
  | none => rfl
  | some v =>
    have hslice := (h.value v hvalue).slice (front ++ (a.blanks ++ (a.name ++ ['=']))) back
    have hplace : byteLength (front ++ (a.blanks ++ (a.name ++ ['=']))) =
        byteLength front + byteLength a.blanks + byteLength a.name + 1 := by
      have hwidth : '='.utf8Size = 1 := rfl
      simp only [byteLength_append, byteLength, hwidth]
      omega
    have htext : front ++ (a.text ++ back) =
        front ++ (a.blanks ++ (a.name ++ ['='])) ++ (v.text ++ back) := by
      simp [WrittenAttribute.text, WrittenAttribute.assigned, hvalue]
    rw [htext, ← hplace]
    simp only [Option.map_some, hslice]
    rfl

theorem foldl_dialect {as : List WrittenAttribute} (has : ∀ a ∈ as, a.WellFormed hasBraces)
    (front back : List Char) (d : Option Dialect) :
    (attributesAt (byteLength front) as).foldl (Attribute.dialect (front ++ (attributesText as ++ back))) d =
      (as.filterMap fun a => a.value.map fun v => (a.name, String.ofList v.content)).foldl
        (fun d s => scriptDialect s.1 s.2 d) d := by
  induction as generalizing front d with
  | nil => rfl
  | cons a as ih =>
    obtain ⟨ha, has⟩ := List.forall_mem_cons.mp has
    have htext : front ++ (attributesText (a :: as) ++ back) =
        front ++ a.text ++ (attributesText as ++ back) := by
      simp [attributesText]
    have hplace : byteLength front + byteLength a.text = byteLength (front ++ a.text) :=
      (byteLength_append ..).symm
    have hfirst := ha.dialect front (attributesText as ++ back) d
    rw [attributesAt, List.foldl_cons, htext, hplace, ih has, List.append_assoc, hfirst,
      List.filterMap_cons]
    cases a.value <;> rfl

theorem WrittenTag.WellFormed.dialect {tag : WrittenTag} (h : tag.WellFormed hasBraces) (front rest : List Char) :
    (tag.attributesAt (byteLength front)).foldl (Attribute.dialect (front ++ (tag.text ++ rest)))
      (some .javaScript) = dialectOf tag.settings := by
  have hfold := foldl_dialect h.attributes (front ++ '<' :: tag.name) (tag.blanks ++ '>' :: rest)
    (some .javaScript)
  have hplace : byteLength (front ++ '<' :: tag.name) = byteLength front + 1 + byteLength tag.name := by
    have hwidth : '<'.utf8Size = 1 := rfl
    simp only [byteLength_append, byteLength, hwidth]
    omega
  have htext : front ++ (tag.text ++ rest) =
      front ++ '<' :: tag.name ++ (attributesText tag.attributes ++ (tag.blanks ++ '>' :: rest)) := by
    simp [WrittenTag.text]
  rw [htext, WrittenTag.attributesAt, ← hplace, hfold, foldl_scriptDialect, dialectOf, WrittenTag.settings]
  rfl

/-! Scripts and style blocks. -/

/-- A mark that begins in a text and does not hold what stands behind it ends in it, too. -/
theorem prefix_of_append_cons {mark : List Char} {c : Char} (h : mark <+: text ++ c :: rest) (hne : text ≠ [])
    (hc : c ∉ mark.tail) : mark <+: text := by
  obtain ⟨behind, hbehind⟩ := h
  rcases List.append_eq_append_iff.mp hbehind with ⟨more, rfl, -⟩ | ⟨more, rfl, hmore⟩
  · exact List.prefix_append mark more
  · cases more with
    | nil => simp
    | cons d more =>
      obtain ⟨rfl, -⟩ := List.cons.inj hmore
      obtain ⟨t, ts, rfl⟩ := List.exists_cons_of_ne_nil hne
      exact absurd (List.mem_append_right ts List.mem_cons_self) hc

theorem prefix_of_closes {name cs : List Char} (h : closes name cs = true) :
    ('<' :: '/' :: name) <+: cs.map Char.toLower := by
  rw [closes_eq, Bool.and_eq_true, List.isPrefixOf_iff_prefix, List.isPrefixOf_iff_prefix] at h
  obtain ⟨⟨behind, rfl⟩, more, hmore⟩ := h
  refine ⟨more, ?_⟩
  rw [List.cons_append, List.cons_append, hmore]
  rfl

theorem closes_endTag {name closing : List Char} (h : closing.map Char.toLower = name) (rest : List Char) :
    closes name (endTagText closing ++ rest) = true := by
  rw [closes_eq, Bool.and_eq_true, List.isPrefixOf_iff_prefix, List.isPrefixOf_iff_prefix]
  refine ⟨⟨_, rfl⟩, ('>' :: rest).map Char.toLower, ?_⟩
  simp [endTagText, ← h]

namespace WrittenTag

variable {tag : WrittenTag} {body closing : List Char}

theorem find_closing (hopen : '<' ∉ tag.lower) (hbody : ¬ ('<' :: '/' :: tag.lower) <:+: body.map Char.toLower)
    (hclosing : closing.map Char.toLower = tag.lower) (rest : List Char) (n : Nat) :
    Point.find (closes tag.lower) ⟨body ++ (endTagText closing ++ rest), n⟩ =
      ⟨endTagText closing ++ rest, n + byteLength body⟩ := by
  refine Point.find_append (fun front back hsplit hne => ?_) (closes_endTag hclosing rest)
  rw [Bool.eq_false_iff]
  intro hcloses
  have hmark := prefix_of_closes hcloses
  rw [List.map_append, show endTagText closing ++ rest = '<' :: ('/' :: (closing ++ ['>']) ++ rest) from rfl,
    List.map_cons] at hmark
  have hback := prefix_of_append_cons (c := '<') hmark (by simpa using hne) (by simpa using hopen)
  refine hbody (hback.isInfix.trans ?_)
  rw [hsplit, List.map_append]
  exact (List.suffix_append _ _).isInfix

/-- What stands behind the tag is passed up to the end tag. -/
theorem behindBody_closing (hkind : tag.lower = "script".toList ∨ tag.lower = "style".toList)
    (hbody : ¬ ('<' :: '/' :: tag.lower) <:+: body.map Char.toLower)
    (hclosing : closing.map Char.toLower = tag.lower) (rest : List Char) (n : Nat) :
    Point.behindBody tag.lower ⟨body ++ (endTagText closing ++ rest), n⟩ =
      ⟨endTagText closing ++ rest, n + byteLength body⟩ := by
  have hopen : '<' ∉ tag.lower := by
    rcases hkind with hkind | hkind <;> rw [hkind] <;> decide
  rw [Point.behindBody, if_pos, find_closing hopen hbody hclosing]
  rcases hkind with hkind | hkind <;> rw [hkind] <;> rfl

theorem WellFormed.dialect_leads (h : tag.WellFormed hasBraces) (hp : Leads (.ofText source) ⟨tag.text ++ rest, n⟩) :
    (tag.attributesAt n).foldl (Attribute.dialect source.toList) (some .javaScript) = dialectOf tag.settings := by
  obtain ⟨front, hfront⟩ := hp
  have hsource : source.toList = front ++ (tag.text ++ rest) := hfront.rest
  have hplace : n = byteLength front := hfront.pos.trans (Nat.zero_add _)
  rw [hsource, hplace]
  exact h.dialect front rest

/-- What is found in an element, from what its tag was read as. -/
theorem found_element (body closing : List Char) {cs : List Char} {m : Nat}
    (hkind : tag.lower = "script".toList ∨ tag.lower = "style".toList)
    (hdialect : (tag.attributesAt n).foldl (Attribute.dialect cs) (some .javaScript) = dialectOf tag.settings)
    (hm : m + 1 = n + byteLength tag.text) : (Item.element tag body closing).found n =
      classesFound tag.lower (tag.attributesAt n) ++ bodyFound cs tag.lower (tag.attributesAt n) m
        ⟨n + byteLength tag.text, n + byteLength tag.text + byteLength body⟩ := by
  have hlast : n + byteLength tag.text - 1 = m := by omega
  rw [Item.found, tag.classesFound_eq, bodyFound, hdialect, hlast]
  rcases hkind with hkind | hkind
  · have hother : tag.lower ≠ "style".toList := by rw [hkind]; decide
    rw [if_neg hother, beq_false_of_ne hother, hkind]
    rfl
  · rw [if_pos hkind, hkind]
    rfl

theorem quiet_closing (hkind : tag.lower = "script".toList ∨ tag.lower = "style".toList)
    (hclosing : closing.map Char.toLower = tag.lower) : Quiet hasBraces closing := by
  have hletters : ∀ c ∈ tag.lower, c ≠ '<' ∧ c ≠ '\x7b' := by
    rcases hkind with hkind | hkind <;> rw [hkind] <;> decide
  intro c hc
  have hlower := List.mem_map_of_mem (f := Char.toLower) hc
  rw [hclosing] at hlower
  refine ⟨?_, fun _ => ?_⟩
  · rintro rfl
    exact (hletters _ hlower).1 rfl
  · rintro rfl
    exact (hletters _ hlower).2 rfl

/-- The tag and its body in one step, and then the end tag. -/
theorem WellFormed.element_run (h : tag.WellFormed hasBraces)
    (hkind : tag.lower = "script".toList ∨ tag.lower = "style".toList)
    (hbody : ¬ ('<' :: '/' :: tag.lower) <:+: body.map Char.toLower)
    (hclosing : closing.map Char.toLower = tag.lower)
    (hp : Leads (.ofText source) ⟨(Item.element tag body closing).text ++ rest, n⟩) :
    Run (scanNext? source.toList hasBraces) ⟨(Item.element tag body closing).text ++ rest, n⟩
      ((Item.element tag body closing).found n)
      ⟨rest, n + byteLength (Item.element tag body closing).text⟩ := by
  have htext : (Item.element tag body closing).text ++ rest =
      tag.text ++ (body ++ (endTagText closing ++ rest)) := by
    simp [Item.text]
  have hsize : n + byteLength (Item.element tag body closing).text =
      n + byteLength tag.text + byteLength body + byteLength (endTagText closing) := by
    simp only [Item.text, byteLength_append]
    omega
  rw [htext] at hp ⊢
  rw [hsize]
  obtain ⟨q, m, hread, hq, hm⟩ := h.read source.toList (body ++ (endTagText closing ++ rest)) n
  have hbehind := behindBody_closing hkind hbody hclosing rest (n + byteLength tag.text)
  have hfound := found_element body closing hkind (h.dialect_leads hp) hm
  have hstep : scanNext? source.toList hasBraces ⟨tag.text ++ (body ++ (endTagText closing ++ rest)), n⟩ =
      some ((Item.element tag body closing).found n,
        ⟨endTagText closing ++ rest, n + byteLength tag.text + byteLength body⟩) := by
    rw [h.step, hread, tagFound_end hq, hm, hbehind, hfound]
  have hrun := (Run.single hstep).trans (endTag_run (quiet_closing hkind hclosing) rest _)
  rwa [List.append_nil] at hrun

end WrittenTag

/-! Documents. -/

/-- Over one item, whatever stands in front of it and behind it. -/
theorem Item.run {item : Item} (h : item.WellFormed hasBraces)
    (hp : Leads (.ofText source) ⟨item.text ++ rest, n⟩) :
    Run (scanNext? source.toList hasBraces) ⟨item.text ++ rest, n⟩ (item.found n)
      ⟨rest, n + byteLength item.text⟩ := by
  cases item with
  | plain text => exact Quiet.run h rest n
  | comment body => exact comment_run h rest n
  | endTag name => exact endTag_run h rest n
  | braces content =>
    obtain ⟨rfl, hflat⟩ := h
    exact braces_run hflat rest n
  | startTag tag =>
    obtain ⟨htag, hscript, hstyle⟩ := h
    exact htag.startTag_run hscript hstyle rest n
  | element tag body closing =>
    obtain ⟨htag, hkind, hbody, hclosing⟩ := h
    exact htag.element_run hkind hbody hclosing hp

theorem document_run {items : List Item} (h : ∀ item ∈ items, item.WellFormed hasBraces)
    (hp : Leads (.ofText source) ⟨documentText items, n⟩) :
    Run (scanNext? source.toList hasBraces) ⟨documentText items, n⟩ (documentFound n items)
      ⟨[], n + byteLength (documentText items)⟩ := by
  induction items generalizing n with
  | nil => exact .refl _
  | cons item items ih =>
    obtain ⟨hitem, hitems⟩ := List.forall_mem_cons.mp h
    rw [documentText, List.flatMap_cons] at hp ⊢
    have hrun := Item.run hitem hp
    rw [byteLength_append, ← Nat.add_assoc]
    exact hrun.trans (ih hitems (hp.trans hrun.leads_scan))

/-- In a written document a scan finds what is to be found, and nothing else. -/
theorem scan_written (hasBraces : Bool) (items : List Item) (h : ∀ item ∈ items, item.WellFormed hasBraces) :
    scan (String.ofList (documentText items)) hasBraces = documentFound 0 items := by
  have hstart : Point.ofText (String.ofList (documentText items)) = ⟨documentText items, 0⟩ :=
    congrArg (Point.mk · 0) String.toList_ofList
  have hleads : Leads (.ofText (String.ofList (documentText items))) ⟨documentText items, 0⟩ := hstart ▸ .refl _
  have hrun := document_run h hleads
  rw [← hstart] at hrun
  exact hrun.scan_eq rfl

theorem isFlat_of_plain {cs : List Char} (h : ∀ c ∈ cs, IsPlain c) : IsFlat cs := by
  have hcode : IsFlat (cs ++ []) := Code.chars .nil cs h
  rwa [List.append_nil] at hcode

def page : List Item :=
  [.comment "<p class=b>".toList,
    .startTag ⟨"p".toList, [⟨[' '], "class".toList, some (.quoted '"' [(true, "b "), (false, "\x7bc\x7d")])⟩,
      ⟨['\n'], "hidden".toList, none⟩, ⟨[' '], "class".toList, some (.plain "a".toList)⟩], [' ']⟩,
    .braces "a > 1".toList, .endTag "p".toList,
    .element ⟨"script".toList, [⟨[' '], "lang".toList, some (.quoted '\'' [(true, "ts")])⟩], []⟩
      "'<p class=b>'".toList "SCRIPT".toList,
    .element ⟨"style".toList, [⟨[' '], "lang".toList, some (.plain "css".toList)⟩], []⟩
      "p \x7b\x7d".toList "style".toList]

theorem page_scanned : (∀ item ∈ page, item.WellFormed true) ∧
    scan (String.ofList (documentText page)) true =
      [.classes ⟨⟨27, 34⟩, true, [.text ⟨28, 30⟩, .braces ⟨30, 33⟩]⟩,
        .classes ⟨⟨48, 49⟩, false, [.text ⟨48, 49⟩]⟩,
        .script ⟨80, 93⟩ .typeScript,
        .style ⟨117, some ⟨⟨109, 117⟩, some ⟨114, 117⟩⟩, ⟨118, 122⟩⟩] := by
  have hclass : (WrittenAttribute.mk [' '] "class".toList
      (some (.quoted '"' [(true, "b "), (false, "\x7bc\x7d")]))).WellFormed true := by
    refine ⟨by decide, by decide, by decide, ⟨'c', rfl, by decide⟩, ?_⟩
    rintro v ⟨⟩
    refine ⟨.inl rfl, by decide, ?_, by decide⟩
    simpa using ⟨"c".toList, isFlat_of_plain (by decide), rfl⟩
  have hhidden : (WrittenAttribute.mk ['\n'] "hidden".toList none).WellFormed true :=
    ⟨by decide, by decide, by decide, ⟨'h', rfl, by decide⟩, by simp⟩
  have hbare : (WrittenAttribute.mk [' '] "class".toList (some (.plain "a".toList))).WellFormed true := by
    refine ⟨by decide, by decide, by decide, ⟨'c', rfl, by decide⟩, ?_⟩
    rintro v ⟨⟩
    exact ⟨by decide, 'a', rfl, by decide⟩
  have hscript : (WrittenAttribute.mk [' '] "lang".toList (some (.quoted '\'' [(true, "ts")]))).WellFormed true := by
    refine ⟨by decide, by decide, by decide, ⟨'l', rfl, by decide⟩, ?_⟩
    rintro v ⟨⟩
    exact ⟨.inr rfl, by decide, by simp, by decide⟩
  have hstyle : (WrittenAttribute.mk [' '] "lang".toList (some (.plain "css".toList))).WellFormed true := by
    refine ⟨by decide, by decide, by decide, ⟨'l', rfl, by decide⟩, ?_⟩
    rintro v ⟨⟩
    exact ⟨by decide, 'c', rfl, by decide⟩
  have hnone {mark text : List Char} (c : Char) (hc : c ∈ mark) (htext : c ∉ text) : ¬ mark <:+: text :=
    fun h => htext (h.subset hc)
  have hwritten : ∀ item ∈ page, item.WellFormed true := by
    refine List.forall_mem_cons.mpr ⟨hnone '-' (by decide) (by decide), List.forall_mem_cons.mpr ⟨?_, List.forall_mem_cons.mpr ⟨?_,
      List.forall_mem_cons.mpr ⟨?_, List.forall_mem_cons.mpr ⟨?_, List.forall_mem_singleton.mpr ?_⟩⟩⟩⟩⟩
    · refine ⟨⟨by decide, ⟨'p', rfl, rfl⟩, ?_, by decide⟩, by decide, by decide⟩
      exact List.forall_mem_cons.mpr ⟨hclass, List.forall_mem_cons.mpr ⟨hhidden, List.forall_mem_singleton.mpr hbare⟩⟩
    · exact ⟨rfl, isFlat_of_plain (by decide)⟩
    · show Quiet true "p".toList
      decide
    · exact ⟨⟨by decide, ⟨'s', rfl, rfl⟩, List.forall_mem_singleton.mpr hscript, by decide⟩, .inl rfl,
        hnone '/' (by decide) (by decide), rfl⟩
    · exact ⟨⟨by decide, ⟨'s', rfl, rfl⟩, List.forall_mem_singleton.mpr hstyle, by decide⟩, .inr rfl,
        hnone '/' (by decide) (by decide), rfl⟩
  refine ⟨hwritten, ?_⟩
  rw [scan_written true page hwritten]
  decide

def bareClass : List Item := [.startTag ⟨"p".toList, [⟨[' '], "class".toList, none⟩], []⟩]

def Item.classAttributes : Item → Nat
  | .startTag tag => (tag.attributes.filter (·.name == "class".toList)).length
  | .element tag _ _ =>
    if tag.lower = "script".toList then 0 else (tag.attributes.filter (·.name == "class".toList)).length
  | _ => 0

/-- It is an attribute with this name, but nothing is found in its place. -/
theorem bareClass_not_found : (∀ item ∈ bareClass, item.WellFormed false) ∧
    (bareClass.map (·.classAttributes)).sum = 1 ∧ scan (String.ofList (documentText bareClass)) false = [] := by
  have hwritten : ∀ item ∈ bareClass, item.WellFormed false := by
    refine List.forall_mem_singleton.mpr ⟨⟨by decide, ⟨'p', rfl, rfl⟩, ?_, by decide⟩, by decide, by decide⟩
    refine List.forall_mem_singleton.mpr ⟨by decide, by decide, by decide, ⟨'c', rfl, by decide⟩, by simp⟩
  exact ⟨hwritten, rfl, rfl⟩

end ClassSort.Markup
