import ClassSort.Proofs.Markup.Rescanned
import ClassSort.Proofs.Edit.Splicing

/-!
The fix for a style block that uses `@apply`. A `lang` attribute that is there is replaced, and else one
is put in at the end of the start tag. When the document is scanned again the block is found with the
right mark and the same body, and everything else as it was: unless an attribute of the tag still waits for
its value, which then takes the new attribute for it.
-/

namespace ClassSort

def Violation.move (v : Violation) (n : Nat) : Nat :=
  if n ≤ v.range.start then n else n - v.range.stop + (v.range.start + byteLength v.replacement.toList)

theorem Violation.move_front {v : Violation} {n : Nat} (h : n ≤ v.range.start) : v.move n = n := if_pos h

theorem Violation.move_behind {v : Violation} {k n : Nat} (hstop : n = v.range.stop + k) (hstart : v.range.start < n) :
    v.move n = v.range.start + byteLength v.replacement.toList + k := by
  rw [Violation.move, if_neg (by omega)]
  omega

open Markup

namespace StyleLang

variable {source : String} {block : StyleBlock} {v : Violation}

/-! The attribute that the fix puts in. -/

def mark (n : Nat) : Attribute :=
  ⟨⟨n, n + 4⟩, "lang".toList, some (Grouping.quoted (n + 5) [(true, "postcss")])⟩

theorem readAttribute_fix (rest : List Char) (n : Nat) :
    readAttribute true ⟨fix.toList ++ rest, n⟩ = (mark n, ⟨rest, n + 14⟩) := by
  have hvalue : HasValue ⟨fix.toList ++ rest, n⟩ := ⟨rfl, rfl⟩
  have hbehind : Point.behindEquals ⟨fix.toList ++ rest, n⟩ =
      ⟨'"' :: ("postcss".toList ++ '"' :: rest), n + 5⟩ := rfl
  have hlegible : Grouping.Legible true '"' [(true, "postcss")] := by
    constructor
    · decide
    · simp
    · exact .singleton _
  have hread := Grouping.readValue_quoted (n := n + 5) (.inl rfl) hlegible rest
  have hshown : (Grouping.shown [(true, "postcss")]).toList = "postcss".toList := rfl
  rw [hshown] at hread
  rw [hvalue.readAttribute_eq, hbehind, hread]
  rfl

theorem asLang_mark (n : Nat) : (mark n).asLang = ⟨⟨n, n + 14⟩, some ⟨n + 6, n + 13⟩⟩ := by
  have hsize : 2 ≤ (Grouping.quoted (n + 5) [(true, "postcss")]).span.size := by
    change 2 ≤ n + 14 - (n + 5)
    omega
  have hcontent : (Grouping.quoted (n + 5) [(true, "postcss")]).content = ⟨n + 6, n + 13⟩ := by
    rw [Value.content, decide_eq_true hsize]
    rfl
  rw [Attribute.asLang, mark, Option.map_some, hcontent]
  rfl

/-! What the rule asks of a block. -/

theorem check_marked {n : Nat} {front back : List Char} (hlang : block.lang = some (mark n).asLang)
    (hsource : source.toList = front ++ (fix.toList ++ back)) (hn : n = byteLength front) :
    check source block = none := by
  have hslice : sliceChars? source.toList ⟨n + 6, n + 13⟩ = some "postcss".toList := by
    refine sliceChars?_eq_some.mpr ⟨front ++ "lang=\"".toList, '"' :: back, ?_, ?_, rfl⟩
    · rw [hsource]
      simp [fix]
    · rw [byteLength_append, hn]
      rfl
  have htext : (block.lang.bind (·.value)).bind (slice? source) = some "postcss" := by
    rw [hlang, asLang_mark]
    exact congrArg (Option.map String.ofList) hslice
  simp [check, htext]

/-- What is reported about a block without a `lang` attribute. -/
theorem check_unmarked (hlang : block.lang = none) : check source block = (slice? source block.body).bind fun css =>
    if usesApply css then some ⟨rule, ⟨block.tagEnd, block.tagEnd⟩, " " ++ fix, message⟩ else none := by
  rw [check, hlang]
  cases slice? source block.body with
  | none => rfl
  | some css => cases husage : usesApply css <;> simp [husage]

theorem range_of_check {lang : LangAttribute} (h : check source block = some v) (hlang : block.lang = some lang) :
    v.range = lang.span ∧ v.replacement = fix := by
  unfold check at h
  rw [hlang] at h
  obtain ⟨css, -, h⟩ := Option.bind_eq_some_iff.mp h
  split at h
  · cases h
  · cases h
    exact ⟨rfl, rfl⟩

/-! A block without the attribute. -/

variable {front back : List Finding} {p q q' : Point} {as as' : List Attribute} {opening text rest : List Char}
  {fixed : Fixed}

structure Inserted (source : String) (p q : Point) (v : Violation) (fixed : Fixed) (opening text rest : List Char) :
    Prop where
  opened : Crosses (.ofText source) p.inTag opening
  inside : p.inTag = ⟨text ++ '>' :: rest, p.inTag.pos⟩
  ended : q.skipBlanks = ⟨'>' :: rest, v.range.start⟩
  between : v.range.start = p.inTag.pos + byteLength text
  empty : v.range.stop = v.range.start
  replacement : v.replacement = " " ++ fix
  applied : applyViolations source [v] = .ok fixed
  output : fixed.output.toList = opening ++ (text ++ ' ' :: (fix.toList ++ '>' :: rest))

theorem exists_inserted (h : StyleTag source block front back p as q) (hcheck : check source block = some v)
    (hlang : block.lang = none) : ∃ fixed opening text rest, Inserted source p q v fixed opening text rest := by
  obtain ⟨opening, hopening⟩ := h.leads_inTag
  obtain ⟨text, htext⟩ := h.read.leads_attributes.trans (q.leads_skip isAsciiBlank)
  obtain ⟨rest, hrest⟩ := List.head?_eq_some_iff.mp h.ended
  have hskipped : q.skip isAsciiBlank = ⟨'>' :: rest, q.skipBlanks.pos⟩ := congrArg (Point.mk · _) hrest
  rw [hskipped] at htext
  rw [check_unmarked hlang] at hcheck
  obtain ⟨css, -, hv⟩ := Option.bind_eq_some_iff.mp hcheck
  split at hv
  · have hv := (Option.some.inj hv).symm
    have htagEnd : block.tagEnd = q.skipBlanks.pos := congrArg StyleBlock.tagEnd h.found
    have hstart : v.range.start = q.skipBlanks.pos := by rw [hv, ← htagEnd]
    have hpos : q.skipBlanks.pos = byteLength (opening ++ text) := by
      have hwhole : q.skipBlanks.pos = 0 + byteLength (opening ++ text) := (hopening.trans htext).pos
      rwa [Nat.zero_add] at hwhole
    have hsource : source.toList = opening ++ text ++ [] ++ '>' :: rest := by
      rw [List.append_nil]
      exact (hopening.trans htext).rest
    have happlied := applyViolations_single hsource (hstart.trans hpos) (by rw [hv, htagEnd, hpos]; rfl)
    refine ⟨_, opening, text, rest, hopening, congrArg (Point.mk · _) htext.rest, ?_, ?_, ?_, ?_, happlied, ?_⟩
    · rw [hstart]
      exact hskipped
    · rw [hstart]
      exact htext.pos
    · rw [hv]
    · rw [hv]
    · rw [hv]
      simp
  · cases hv

/-- What a scan finds in it, told by the attributes that are read now. -/
theorem Inserted.rescan (hi : Inserted source p q v fixed opening text rest)
    (h : StyleTag source block front back p as q)
    (hread : Run (nextAttribute? true) ⟨text ++ ' ' :: (fix.toList ++ '>' :: rest), p.inTag.pos⟩ as' q')
    (hend : q'.skipBlanks = ⟨'>' :: rest, v.range.start + 15⟩) :
    ∃ block', scan fixed.output true = front.map (Finding.map v.move) ++
        ((classValues as').map .classes ++ .style block' :: back.map (Finding.map v.move)) ∧
      block' = ⟨q'.skipBlanks.pos, lastLang? as', block.body.map v.move⟩ ∧
      sliceChars? fixed.output.toList block'.body = sliceChars? source.toList block.body := by
  have hbehind : Matched [] [] v.move q.skipBlanks.next q'.skipBlanks.next := by
    rw [hi.ended, hend]
    refine ⟨rest, (List.append_nil _).symm, (List.append_nil _).symm, ?_⟩
    intro n hn
    have hmoved : v.move (v.range.start + 1 + n) = v.range.start + byteLength v.replacement.toList + (1 + n) :=
      Violation.move_behind (by rw [hi.empty]; omega) (by omega)
    have hwidth : byteLength v.replacement.toList = 15 := by
      rw [hi.replacement]
      rfl
    change v.move (v.range.start + 1 + n) = v.range.start + 15 + 1 + n
    omega
  refine h.rescan hi.opened hi.output ?_ ?_ hread hbehind (by rw [hend]; rfl)
  · intro c hc
    cases text with
    | nil =>
      obtain rfl : ' ' = c := Option.some.inj hc
      rfl
    | cons d text =>
      refine p.inTag_head c ?_
      rw [hi.inside]
      exact hc
  · intro n hn
    exact Violation.move_front (by rw [hi.between]; omega)

theorem nextAttribute?_fix {n : Nat} (hq : q.skipBlanks = ⟨fix.toList ++ rest, n⟩) :
    nextAttribute? true q = some ([mark n], ⟨rest, n + 14⟩) := by
  have hopen : q.skipBlanks.rest.head? = some 'l' := by
    rw [hq]
    rfl
  have hne : q.skipBlanks.rest ≠ [] := by
    intro hnil
    rw [hnil] at hopen
    cases hopen
  rw [nextAttribute?, if_neg (by simp [hne, hopen]), attributeStep_of_head (by simp [hopen]), hq, readAttribute_fix]

/-- The block is found again, with the same body, and so is everything else; all of it has moved along. -/
structure FoundAgain (source output : String) (v : Violation) (block block' : StyleBlock) : Prop where
  scans : ∃ before after, scan source true = before ++ .style block :: after ∧
    scan output true = before.map (Finding.map v.move) ++ .style block' :: after.map (Finding.map v.move)
  body : block'.body = block.body.map v.move
  text : slice? output block'.body = slice? source block.body

/-- An attribute of the tag waits for its value. -/
def Dangles (source : String) (block : StyleBlock) : Prop :=
  block.lang = none ∧ ∃ front back p as q, StyleTag source block front back p as q ∧ ∃ a ∈ as, a.LacksValue

/-- What a scan has found, put together from what it finds in front of the tag, in it, and behind it. -/
theorem FoundAgain.of_scan {output : String} {block' : StyleBlock} (h : StyleTag source block front back p as q)
    (hclasses : classValues as' = (classValues as).map (Value.map v.move))
    (hscan : scan output true = front.map (Finding.map v.move) ++
      ((classValues as').map .classes ++ .style block' :: back.map (Finding.map v.move)))
    (hbody : block'.body = block.body.map v.move)
    (htext : sliceChars? output.toList block'.body = sliceChars? source.toList block.body) :
    FoundAgain source output v block block' where
  scans := by
    refine ⟨front ++ (classValues as).map .classes, back, ?_, ?_⟩
    · rw [h.scan_eq, List.append_assoc]
    · have hmoved : (classValues as').map Finding.classes =
          ((classValues as).map Finding.classes).map (Finding.map v.move) := by
        rw [hclasses, List.map_map, List.map_map]
        rfl
      rw [hscan, hmoved, List.map_append, List.append_assoc]
  body := hbody
  text := congrArg (Option.map String.ofList) htext

theorem Inserted.settles (hi : Inserted source p q v fixed opening text rest)
    (h : StyleTag source block front back p as q) (hvalues : ∀ a ∈ as, ¬ a.LacksValue) :
    ∃ block', FoundAgain source fixed.output v block block' ∧ check fixed.output block' = none := by
  have hread := h.read
  rw [hi.inside] at hread
  have hfirst : (fix.toList ++ '>' :: rest).head? = some 'l' := rfl
  obtain ⟨r, hrun, hr⟩ := lengthened_run hread hi.ended hvalues hfirst
  have hend : Point.skipBlanks ⟨'>' :: rest, v.range.start + 1 + 14⟩ = ⟨'>' :: rest, v.range.start + 15⟩ :=
    Point.skipBlanks_self (by rintro c ⟨⟩; rfl)
  obtain ⟨block', hscan, hblock', htext⟩ := hi.rescan h (hrun.trans (.single (nextAttribute?_fix hr))) hend
  have hstop : nextAttribute? true q = none := by rw [nextAttribute?, if_pos (.inr h.ended)]
  have hkept : as.map (Attribute.map v.move) = as := by
    refine h.read.map_fixed hstop fun n hn => Violation.move_front ?_
    rwa [hi.ended] at hn
  have hclasses : classValues (as ++ [mark (v.range.start + 1)]) = (classValues as).map (Value.map v.move) := by
    rw [← classValues_map, hkept, classValues_append]
    exact List.append_nil _
  refine ⟨block', .of_scan h hclasses hscan (by rw [hblock']) htext, ?_⟩
  have hlang : block'.lang = some (mark (v.range.start + 1)).asLang := by
    rw [hblock', lastLang?_append]
    rfl
  have houtput : fixed.output.toList = opening ++ (text ++ [' ']) ++ (fix.toList ++ '>' :: rest) := by
    rw [hi.output]
    simp
  refine check_marked hlang houtput ?_
  have hpos : p.inTag.pos = byteLength opening := hi.opened.pos.trans (Nat.zero_add _)
  rw [byteLength_append, byteLength_append, hi.between, hpos, Nat.add_assoc]
  rfl

/-- Only a name tells whether an attribute is the `lang` attribute. -/
theorem Inserted.dangles (hi : Inserted source p q v fixed opening text rest)
    (h : StyleTag source block front back p as q) (hcheck : check source block = some v) (hlang : block.lang = none)
    {a : Attribute} (ha : a ∈ as) (hmissing : a.LacksValue) :
    ∃ block', .style block' ∈ scan fixed.output true ∧ block'.body = block.body.map v.move ∧
      slice? fixed.output block'.body = slice? source block.body ∧
      check fixed.output block' = some ⟨rule, ⟨block'.tagEnd, block'.tagEnd⟩, " " ++ fix, message⟩ := by
  have hread := h.read
  rw [hi.inside] at hread
  have hfirst : (fix.toList ++ '>' :: rest).head? = some 'l' := rfl
  obtain ⟨before, r, rfl, hrun, hstep⟩ := dangling_run hread hi.ended ha hmissing hfirst
  have hbare : (readValue true ⟨fix.toList ++ '>' :: rest, v.range.start + 1⟩).2 = ⟨'>' :: rest, v.range.start + 15⟩ := by
    have hletters : ∀ c ∈ fix.toList, (!endsBareValue c) = true := by decide
    exact Point.skip_append hletters (by rintro c ⟨⟩; rfl)
  rw [hbare] at hstep
  have hend : Point.skipBlanks ⟨'>' :: rest, v.range.start + 15⟩ = ⟨'>' :: rest, v.range.start + 15⟩ :=
    Point.skipBlanks_self (by rintro c ⟨⟩; rfl)
  obtain ⟨block', hscan, hblock', htext⟩ := hi.rescan h (hrun.trans (.single hstep)) hend
  have hslice : slice? fixed.output block'.body = slice? source block.body := congrArg (Option.map String.ofList) htext
  have hunmarked : block'.lang = none := by
    rw [hblock']
    have hnone : lastLang? (before ++ [a]) = none := by
      rw [← hlang, h.found]
    rw [lastLang?_eq_none] at hnone ⊢
    intro b hb
    rcases List.mem_append.mp hb with hb | hb
    · exact hnone b (List.mem_append_left _ hb)
    · rw [List.mem_singleton.mp hb]
      exact hnone a (List.mem_append_right _ List.mem_cons_self)
  refine ⟨block', ?_, by rw [hblock'], hslice, ?_⟩
  · rw [hscan]
    simp
  · rw [check_unmarked hlang] at hcheck
    obtain ⟨css, hcss, hv⟩ := Option.bind_eq_some_iff.mp hcheck
    rw [check_unmarked hunmarked, hslice, hcss]
    split at hv
    · next huses => simp [huses]
    · cases hv

/-! A block with the attribute. -/

/-- Where the attribute is read that counts. `r` stands in front of it, `s` where it ends. -/
structure LangAt (p q : Point) (lang : LangAttribute) (before : List Attribute) (a : Attribute)
    (after : List Attribute) (r s r' : Point) : Prop where
  front : Run (nextAttribute? true) p before r
  span : lang.span = ⟨r.skipBlanks.pos, s.pos⟩
  head : r.skipBlanks.rest.head? = some 'l'
  leads : Leads r.skipBlanks.next s
  isLang : a.hasName "lang" = true
  blanks : s.skipBlanks = r'.skipBlanks
  back : Run (nextAttribute? true) r' after q
  last : ∀ b ∈ after, b.hasName "lang" = false

theorem exists_langAt (h : StyleTag source block front back p as q) {lang : LangAttribute}
    (hlang : block.lang = some lang) : ∃ before a after r s r', as = before ++ a :: after ∧
      LangAt p.inTag q lang before a after r s r' := by
  rw [h.found] at hlang
  obtain ⟨before, a, after, rfl, hname, rfl, hlast⟩ := exists_lastLang hlang
  obtain ⟨r, r', hfront, hstep, hback⟩ := h.read.split_at fun _ _ _ => nextAttribute?_length
  obtain ⟨-, -, hread⟩ := nextAttribute?_eq_some hstep
  obtain ⟨-, hread⟩ := attributeStep_single hread
  have htext : a.text = "lang".toList := eq_of_beq hname
  have hrest : r'.rest ≠ [] := by
    intro hnil
    have hle := (hback.leads_attributes.trans (q.leads_skip isAsciiBlank)).length_le
    have hend : (q.skip isAsciiBlank).rest.head? = some '>' := h.ended
    rw [hnil, List.length_nil, Nat.le_zero, List.length_eq_zero_iff] at hle
    rw [hle] at hend
    cases hend
  have hnamed : (readAttribute true r.skipBlanks).1.text ≠ [] := by
    rw [hread, htext]
    exact List.cons_ne_nil _ _
  obtain ⟨s, hs, hstop, hblanks⟩ := readAttribute_ends hnamed (by rwa [hread])
  obtain ⟨hstart, -⟩ := readAttribute_reaches true r.skipBlanks
  rw [hread] at hstart hstop hblanks
  refine ⟨before, a, after, r, s, r', rfl, hfront, ?_, ?_, hs, hname, hblanks, hback, hlast⟩
  · rw [Attribute.asLang, hstart, hstop]
  · have hletters : r.skipBlanks.rest.takeWhile (!endsName ·) = "lang".toList := by
      rw [← readAttribute_text true, hread, htext]
    rw [← List.takeWhile_append_dropWhile (p := (!endsName ·)) (l := r.skipBlanks.rest), hletters]
    rfl

/-- With the fix in its place the attributes are read as before, but for this one. -/
theorem LangAt.run {lang : LangAttribute} {before after : List Attribute} {a : Attribute} {r s r' : Point}
    {f : Nat → Nat} (hl : LangAt p q lang before a after r s r') (htext : Crosses p r.skipBlanks text)
    (hfront : ∀ n ≤ r.skipBlanks.pos, f n = n) (hbehind : ∀ n, f (s.pos + n) = r.skipBlanks.pos + 14 + n) :
    ∃ q', Run (nextAttribute? true) ⟨text ++ (fix.toList ++ s.rest), p.pos⟩
        (before.map (Attribute.map f) ++ mark r.skipBlanks.pos :: after.map (Attribute.map f)) q' ∧
      Matched [] [] f q.skipBlanks q'.skipBlanks := by
  have hhead : (fix.toList ++ s.rest).head? = r.skipBlanks.rest.head? := by
    rw [hl.head]
    rfl
  have hstart : Matched r.skipBlanks.rest (fix.toList ++ s.rest) f p ⟨text ++ (fix.toList ++ s.rest), p.pos⟩ := by
    refine ⟨text, htext.rest, rfl, fun n hn => ?_⟩
    have hpos := htext.pos
    exact hfront _ (by omega)
  obtain ⟨hblanks, -⟩ := hstart.skip hhead hl.front.leads_skipBlanks.length_le
  obtain ⟨r₁, hrun, hr⟩ := hl.front.attributes_matched hhead hblanks (Nat.le_refl _)
  have hreached := hr.reached rfl
  rw [hfront _ (Nat.le_refl _)] at hreached
  have hbehind : Matched [] [] f s ⟨s.rest, r.skipBlanks.pos + 14⟩ :=
    ⟨s.rest, (List.append_nil _).symm, (List.append_nil _).symm, fun n _ => hbehind n⟩
  obtain ⟨hblanks, -⟩ := hbehind.skip rfl (Nat.zero_le _)
  change Matched [] [] f s.skipBlanks _ at hblanks
  rw [hl.blanks] at hblanks
  obtain ⟨q', hrun', hq'⟩ := hl.back.attributes_matched rfl hblanks (Nat.zero_le _)
  exact ⟨q', hrun.trans (.step (nextAttribute?_fix hreached) hrun'), hq'⟩

theorem LangAt.classes {lang : LangAttribute} {before after : List Attribute} {a : Attribute} {r s r' : Point}
    (hl : LangAt p q lang before a after r s r') (f : Nat → Nat) (n : Nat) :
    classValues (before.map (Attribute.map f) ++ mark n :: after.map (Attribute.map f)) =
      (classValues (before ++ a :: after)).map (Value.map f) := by
  have hother : a.hasName "class" = false := by
    rw [Attribute.hasName, eq_of_beq hl.isLang]
    rfl
  rw [classValues_append, classValues_append, classValues_cons, classValues_cons, hother, classValues_map,
    classValues_map, List.map_append]
  rfl

theorem LangAt.lang {lang : LangAttribute} {before after : List Attribute} {a : Attribute} {r s r' : Point}
    (hl : LangAt p q lang before a after r s r') (f : Nat → Nat) (n : Nat) :
    lastLang? (before.map (Attribute.map f) ++ mark n :: after.map (Attribute.map f)) = some (mark n).asLang := by
  have hlast : lastLang? (after.map (Attribute.map f)) = none := by
    rw [lastLang?_eq_none, List.forall_mem_map]
    exact hl.last
  rw [lastLang?_append, lastLang?_cons, hlast]
  rfl

structure Replaced (source : String) (p : Point) (v : Violation) (fixed : Fixed) (r s : Point)
    (opening text : List Char) : Prop where
  opened : Crosses (.ofText source) p.inTag opening
  between : Crosses p.inTag r.skipBlanks text
  start : v.range.start = r.skipBlanks.pos
  stop : v.range.stop = s.pos
  forward : v.range.start < v.range.stop
  replacement : v.replacement = fix
  applied : applyViolations source [v] = .ok fixed
  output : fixed.output.toList = opening ++ (text ++ (fix.toList ++ s.rest))

theorem LangAt.exists_replaced {lang : LangAttribute} {before after : List Attribute} {a : Attribute} {r s r' : Point}
    (hl : LangAt p.inTag q lang before a after r s r') (hp : Leads (.ofText source) p.inTag)
    (hcheck : check source block = some v) (hlang : block.lang = some lang) :
    ∃ fixed opening text, Replaced source p v fixed r s opening text := by
  obtain ⟨opening, hopening⟩ := hp
  obtain ⟨text, htext⟩ := hl.front.leads_attributes.trans (r.leads_skip isAsciiBlank)
  change Crosses p.inTag r.skipBlanks text at htext
  obtain ⟨inside, hinside⟩ := hl.leads
  have hname := (Point.crosses_next hl.head).trans hinside
  obtain ⟨hrange, hreplacement⟩ := range_of_check hcheck hlang
  rw [hl.span] at hrange
  have hstart : v.range.start = r.skipBlanks.pos := by rw [hrange]
  have hstop : v.range.stop = s.pos := by rw [hrange]
  have hpos : r.skipBlanks.pos = byteLength (opening ++ text) :=
    (hopening.trans htext).pos.trans (Nat.zero_add _)
  have hsource : source.toList = opening ++ text ++ (['l'] ++ inside) ++ s.rest := by
    rw [List.append_assoc, ← hname.rest]
    exact (hopening.trans htext).rest
  have happlied := applyViolations_single hsource (hstart.trans hpos) (by rw [hstop, hname.pos, hpos])
  refine ⟨_, opening, text, hopening, htext, hstart, hstop, ?_, hreplacement, happlied, ?_⟩
  · have hwidth : byteLength (['l'] ++ inside) = 1 + byteLength inside := byteLength_append _ _
    have hend := hname.pos
    omega
  · rw [hreplacement]
    simp

theorem Replaced.settles {before after : List Attribute} {a : Attribute} {lang : LangAttribute} {r s r' : Point}
    (hr : Replaced source p v fixed r s opening text) (hl : LangAt p.inTag q lang before a after r s r')
    (h : StyleTag source block front back p (before ++ a :: after) q) :
    ∃ block', FoundAgain source fixed.output v block block' ∧ check fixed.output block' = none := by
  -- positions up to the attribute stay, and those behind it move with its end
  have hfixed : ∀ n ≤ r.skipBlanks.pos, v.move n = n := by
    intro n hn
    exact Violation.move_front (by rwa [hr.start])
  have hbehind : ∀ n, v.move (s.pos + n) = r.skipBlanks.pos + 14 + n := by
    intro n
    have hforward := hr.forward
    have hstop := hr.stop
    have hmoved : v.move (s.pos + n) = v.range.start + byteLength v.replacement.toList + n :=
      Violation.move_behind (by rw [hstop]) (by omega)
    rw [hmoved, hr.start, hr.replacement]
    rfl
  obtain ⟨q', hrun, hq'⟩ := hl.run hr.between hfixed hbehind
  have hname : ∀ c ∈ (text ++ (fix.toList ++ s.rest)).head?, isTagLetter c = false := by
    intro c hc
    refine p.inTag_head c ?_
    rw [hr.between.rest]
    cases text with
    | nil =>
      obtain rfl : 'l' = c := Option.some.inj hc
      exact hl.head
    | cons d text => exact hc
  have hinTag : ∀ n ≤ p.inTag.pos, v.move n = n := by
    intro n hn
    have hpos := hr.between.pos
    exact hfixed n (by omega)
  have hend : q'.skipBlanks.rest.head? = some '>' := (hq'.head rfl).trans h.ended
  have hnext := hq'.next rfl (Nat.zero_le _)
  obtain ⟨block', hscan, hblock', htext⟩ := h.rescan hr.opened hr.output hname hinTag hrun hnext hend
  refine ⟨block', .of_scan h (hl.classes _ _) hscan (by rw [hblock']) htext, ?_⟩
  have hlang : block'.lang = some (mark r.skipBlanks.pos).asLang := by
    rw [hblock']
    exact hl.lang _ _
  have houtput : fixed.output.toList = opening ++ text ++ (fix.toList ++ s.rest) := by
    rw [hr.output, List.append_assoc]
  have hpos : p.inTag.pos = byteLength opening := hr.opened.pos.trans (Nat.zero_add _)
  refine check_marked hlang houtput ?_
  rw [byteLength_append, hr.between.pos, hpos]

/-- The fix settles the block in one step, unless an attribute of the tag waits for its value. -/
theorem styleFix_settles (hblock : .style block ∈ scan source true) (hcheck : check source block = some v) :
    ∃ fixed, applyViolations source [v] = .ok fixed ∧
      (¬ Dangles source block → ∃ block', FoundAgain source fixed.output v block block' ∧
        check fixed.output block' = none) ∧
      (Dangles source block → ∃ block', .style block' ∈ scan fixed.output true ∧
        block'.body = block.body.map v.move ∧ slice? fixed.output block'.body = slice? source block.body ∧
        check fixed.output block' = some ⟨rule, ⟨block'.tagEnd, block'.tagEnd⟩, " " ++ fix, message⟩) := by
  obtain ⟨front, back, p, as, q, h⟩ := exists_styleTag hblock
  cases hlang : block.lang with
  | some lang =>
    obtain ⟨before, a, after, r, s, r', rfl, hl⟩ := exists_langAt h hlang
    obtain ⟨fixed, opening, text, hr⟩ := hl.exists_replaced h.leads_inTag hcheck hlang
    refine ⟨fixed, hr.applied, fun _ => hr.settles hl h, ?_⟩
    rintro ⟨hnone, -⟩
    rw [hlang] at hnone
    cases hnone
  | none =>
    obtain ⟨fixed, opening, text, rest, hi⟩ := exists_inserted h hcheck hlang
    refine ⟨fixed, hi.applied, ?_, ?_⟩
    · intro hsound
      refine hi.settles h fun a ha hmissing => hsound ?_
      exact ⟨hlang, front, back, p, as, q, h, a, ha, hmissing⟩
    · rintro ⟨-, front', back', p', as', q', h', a, ha, hmissing⟩
      obtain ⟨fixed', opening', text', rest', hi'⟩ := exists_inserted h' hcheck hlang
      obtain rfl : fixed' = fixed := Except.ok.inj (hi'.applied.symm.trans hi.applied)
      exact hi'.dangles h' hcheck hlang ha hmissing

def plainPage : String := "<p class=b><style a>@apply x;</style><p class=a>"

def plainBlock : StyleBlock := ⟨19, none, ⟨20, 29⟩⟩

def plainFix : Violation := ⟨rule, ⟨19, 19⟩, " lang=\"postcss\"", message⟩

def mendedPage : String := "<p class=b><style a lang=\"postcss\">@apply x;</style><p class=a>"

def mendedBlock : StyleBlock := ⟨34, some ⟨⟨20, 34⟩, some ⟨26, 33⟩⟩, ⟨35, 44⟩⟩

theorem plainPage_settles : .style plainBlock ∈ scan plainPage true ∧ check plainPage plainBlock = some plainFix ∧
    ¬ Dangles plainPage plainBlock ∧ applyViolations plainPage [plainFix] = .ok ⟨mendedPage, 1, 0⟩ ∧
    ∃ block', FoundAgain plainPage mendedPage plainFix plainBlock block' ∧ check mendedPage block' = none := by
  have hblock : .style plainBlock ∈ scan plainPage true := by decide +kernel
  have hcheck : check plainPage plainBlock = some plainFix := by decide +kernel
  have happlied : applyViolations plainPage [plainFix] = .ok ⟨mendedPage, 1, 0⟩ := by decide +kernel
  have hscan : scan mendedPage true = [.classes ⟨⟨9, 10⟩, false, [.text ⟨9, 10⟩]⟩, .style mendedBlock,
      .classes ⟨⟨61, 62⟩, false, [.text ⟨61, 62⟩]⟩] := by decide +kernel
  have hmended : check mendedPage mendedBlock = none := by decide +kernel
  obtain ⟨fixed, hfixed, hsettles, hdangles⟩ := styleFix_settles hblock hcheck
  obtain rfl := Except.ok.inj (hfixed.symm.trans happlied)
  have hsound : ¬ Dangles plainPage plainBlock := by
    intro hdangle
    obtain ⟨block', hmem, -, -, hagain⟩ := hdangles hdangle
    rw [hscan] at hmem
    obtain rfl : block' = mendedBlock := by simpa using hmem
    rw [hmended] at hagain
    cases hagain
  exact ⟨hblock, hcheck, hsound, happlied, hsettles hsound⟩

def danglingPage : String := "<style a=>@apply x;</style>"

def danglingBlock : StyleBlock := ⟨9, none, ⟨10, 19⟩⟩

def danglingFix : Violation := ⟨rule, ⟨9, 9⟩, " lang=\"postcss\"", message⟩

def swallowedPage : String := "<style a= lang=\"postcss\">@apply x;</style>"

/-- Here the new attribute has become the value of the one in front of it. -/
theorem danglingPage_not_settled : .style danglingBlock ∈ scan danglingPage true ∧
    check danglingPage danglingBlock = some danglingFix ∧
    applyViolations danglingPage [danglingFix] = .ok ⟨swallowedPage, 1, 0⟩ ∧
    ¬ ∃ block', FoundAgain danglingPage swallowedPage danglingFix danglingBlock block' ∧
      check swallowedPage block' = none := by
  have hscan : scan swallowedPage true = [.style ⟨24, none, ⟨25, 34⟩⟩] := by decide +kernel
  have hagain : check swallowedPage ⟨24, none, ⟨25, 34⟩⟩ ≠ none := by decide +kernel
  refine ⟨by decide +kernel, by decide +kernel, by decide +kernel, ?_⟩
  rintro ⟨block', hfound, hsettled⟩
  obtain ⟨before, after, -, hsplit⟩ := hfound.scans
  have hmem : .style block' ∈ scan swallowedPage true := by
    rw [hsplit]
    exact List.mem_append_right _ List.mem_cons_self
  rw [hscan] at hmem
  obtain rfl : block' = _ := by simpa using hmem
  exact hagain hsettled

end StyleLang

end ClassSort
