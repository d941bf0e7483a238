import ClassSort.Proofs.Markup.Bounds
import ClassSort.Proofs.Markup.Recovered

/-!
A tag with one more attribute at its end. What stood in the tag is read as before, and the new attribute
behind it, unless the tag ends right behind an equals sign: then the new attribute is taken for the value
that is missing there.
-/

namespace ClassSort.Markup

open Grouping (Row Plain shown)

variable {text rest more blanks : List Char} {n m : Nat} {p q : Point} {test : Char → Bool} {c : Char}

/-! Readers that stop in a text, or right behind it. -/

theorem Point.skip_within (h : text.dropWhile test ≠ []) (rest : List Char) (n : Nat) :
    Point.skip test ⟨text ++ rest, n⟩ = ⟨text.dropWhile test ++ rest, n + byteLength (text.takeWhile test)⟩ := by
  have htext : text = text.takeWhile test ++ text.dropWhile test := List.takeWhile_append_dropWhile.symm
  have hstop : ∀ d ∈ (text.dropWhile test ++ rest).head?, test d = false := by
    intro d hd
    rw [List.head?_append_of_ne_nil _ h, List.head?_eq_some_head h] at hd
    obtain rfl := Option.some.inj hd
    simpa using List.head_dropWhile_not test h
  have htaken : ∀ d ∈ text.takeWhile test, test d = true := fun d hd => List.mem_takeWhile_imp hd
  have hskip := Point.skip_append (n := n) htaken hstop
  rwa [← List.append_assoc, ← htext] at hskip

/-- A character that stops a reader stops it whether it has come to it or not. -/
theorem Point.skip_delimited (hc : test c = false) (text rest : List Char) (n : Nat) :
    Point.skip test ⟨text ++ c :: rest, n⟩ =
      ⟨text.dropWhile test ++ c :: rest, n + byteLength (text.takeWhile test)⟩ := by
  by_cases hall : text.dropWhile test = []
  · have htext := List.dropWhile_eq_nil_iff.mp hall
    have htaken : text.takeWhile test = text := List.takeWhile_eq_self_iff.mpr htext
    rw [hall, htaken]
    exact Point.skip_append htext (by rintro d ⟨⟩; exact hc)
  · exact Point.skip_within hall _ n

theorem takeWhile_delimited (hc : test c = false) (text rest : List Char) :
    (text ++ c :: rest).takeWhile test = text.takeWhile test := by
  have hskip := congrArg Point.rest (Point.skip_delimited hc text rest 0)
  have hall := List.takeWhile_append_dropWhile (p := test) (l := text ++ c :: rest)
  rw [show (text ++ c :: rest).dropWhile test = text.dropWhile test ++ c :: rest from hskip,
    ← List.append_assoc] at hall
  have htext := List.takeWhile_append_dropWhile (p := test) (l := text)
  exact List.append_cancel_right ((List.append_cancel_right hall).trans htext.symm)

/-- Only white space stands between a reader and the end of the tag. -/
theorem exists_blanks {passed : List Char} (hpassed : text ++ '>' :: rest = passed ++ q.rest)
    (hend : q.skipBlanks = ⟨'>' :: rest, m⟩) : ∃ blanks, (∀ c ∈ blanks, isAsciiBlank c = true) ∧
      text = passed ++ blanks ∧ m = q.pos + byteLength blanks := by
  refine ⟨q.rest.takeWhile isAsciiBlank, fun c hc => List.mem_takeWhile_imp hc, ?_, ?_⟩
  · have hbehind : q.rest.dropWhile isAsciiBlank = '>' :: rest := congrArg Point.rest hend
    have hall := List.takeWhile_append_dropWhile (p := isAsciiBlank) (l := q.rest)
    rw [← hall, hbehind, ← List.append_assoc] at hpassed
    exact List.append_cancel_right hpassed
  · exact (congrArg Point.pos hend).symm

/-- The new attribute is found behind white space. -/
theorem skipBlanks_space (hblanks : ∀ c ∈ blanks, isAsciiBlank c = true) (hmore : more.head? = some 'l') (n : Nat) :
    Point.skipBlanks ⟨blanks ++ ' ' :: more, n⟩ = ⟨more, n + byteLength blanks + 1⟩ := by
  have hall : ∀ c ∈ blanks ++ [' '], isAsciiBlank c = true := by
    intro c hc
    rcases List.mem_append.mp hc with hc | hc
    · exact hblanks c hc
    · obtain rfl := List.mem_singleton.mp hc
      rfl
  have hstop : ∀ d ∈ more.head?, isAsciiBlank d = false := by
    intro d hd
    obtain rfl := Option.some.inj (hmore.symm.trans hd)
    rfl
  have hskip := Point.skip_append (n := n) hall hstop
  rw [List.append_assoc, byteLength_append, ← Nat.add_assoc] at hskip
  exact hskip

/-! Values. -/

/-- A quoted value that ends in front of something is read in the same way in front of anything. -/
theorem readQuoted_closed {v : Value} (hread : readValue true p = (some v, q)) (hquoted : v.isQuoted = true)
    (hrest : q.rest ≠ []) : ∃ passed, Crosses p q passed ∧
      ∀ back, readValue true ⟨passed ++ back, p.pos⟩ = (some v, ⟨back, q.pos⟩) := by
  obtain ⟨quote, close, hat⟩ := exists_quotedAt (congrArg Prod.fst hread) hquoted
  have hafter : q = close.next := (congrArg Prod.snd hread).symm.trans hat.after
  have hclose : close.rest ≠ [] := by
    intro hnil
    rw [hafter, show close.next = close by simp [Point.next, hnil]] at hrest
    exact hrest hnil
  obtain ⟨row, hplain, hparts, hcrosses, hhead⟩ :=
    Grouping.quotedParts_plain (.refl p.next) (List.forall_mem_nil _) (Nat.le_refl _) hat.read hclose
  have hpassed := (Point.crosses_next hat.opened).trans (hcrosses.trans (Point.crosses_next hhead))
  have hstop : q.pos = p.pos + byteLength (shown row).toList + 2 := by
    have hpos := hcrosses.pos
    have hstart := hat.inside
    have hend := Value.QuotedAt.next_pos hhead hat.isQuote
    rw [hafter]
    omega
  have hvalue : v = Grouping.quoted p.pos row := by
    obtain ⟨span, isQuoted, parts⟩ := v
    obtain rfl : isQuoted = true := hquoted
    obtain rfl : span = _ := hat.span
    obtain rfl : parts = _ := hparts
    rw [← hafter, hstop, hat.inside]
    rfl
  refine ⟨_, hafter ▸ hpassed, fun back => ?_⟩
  have hback := Grouping.readValue_quoted (n := p.pos) hat.isQuote hplain.legible back
  rw [hvalue, hstop]
  simpa using hback

/-- The same for an expression in braces. -/
theorem readBraces_closed {v : Option Value} (hread : readValue true p = (v, q))
    (hopen : p.rest.head? = some '\x7b') (hrest : q.rest ≠ []) : ∃ passed, Crosses p q passed ∧
      ∀ back, readValue true ⟨passed ++ back, p.pos⟩ = (v, ⟨back, q.pos⟩) := by
  have hbraces {r : Point} (hr : r.rest.head? = some '\x7b') : readValue true r =
      (some ⟨⟨r.pos, r.pastBraces.pos⟩, false, [.braces ⟨r.pos, r.pastBraces.pos⟩]⟩, r.pastBraces) := by
    obtain ⟨cs, hcons⟩ := List.head?_eq_some_iff.mp hr
    simp [readValue, hcons]
  obtain ⟨rfl, rfl⟩ := Prod.mk.inj ((hbraces hopen).symm.trans hread)
  obtain ⟨passed, hbraced, hcrosses⟩ := Point.pastBraces_braced hopen hrest
  refine ⟨passed, hcrosses, fun back => ?_⟩
  have hpast := hbraced.past back p.pos
  have hhead : (passed ++ back).head? = some '\x7b' := by
    obtain ⟨cs, hcons⟩ := List.head?_eq_some_iff.mp hbraced.opened
    rw [hcons]
    rfl
  rw [hbraces hhead, hpast, hcrosses.pos]

theorem rest_ne_nil (hend : q.skipBlanks = ⟨'>' :: rest, m⟩) : q.rest ≠ [] := by
  intro hnil
  have hbehind : q.rest.dropWhile isAsciiBlank = '>' :: rest := congrArg Point.rest hend
  rw [hnil] at hbehind
  cases hbehind

/-- A value without quotes and braces, up to what ends it. -/
theorem readValue_bare {d : Char} (hquote : ¬ (c == '"' || c == '\'') = true) (hbraces : c ≠ '\x7b')
    (hd : endsBareValue d = true) (cs back : List Char) (n : Nat) : readValue true ⟨c :: cs ++ d :: back, n⟩ =
      (some ⟨⟨n, n + byteLength ((c :: cs).takeWhile (!endsBareValue ·))⟩, false,
        [.text ⟨n, n + byteLength ((c :: cs).takeWhile (!endsBareValue ·))⟩]⟩,
      ⟨(c :: cs).dropWhile (!endsBareValue ·) ++ d :: back,
        n + byteLength ((c :: cs).takeWhile (!endsBareValue ·))⟩) := by
  have hskip := @Point.skip_delimited (!endsBareValue ·) d (by simpa using hd) (c :: cs) back n
  simp only [List.cons_append] at hskip ⊢
  simp only [readValue, hquote, hbraces, beq_iff_eq, Bool.and_true, Bool.false_eq_true, if_false, hskip]

/-- A value that closes itself is the same in front of anything. -/
theorem closed_lengthened {v : Option Value} (hend : q.skipBlanks = ⟨'>' :: rest, m⟩)
    (h : ∃ passed, Crosses ⟨text ++ '>' :: rest, n⟩ q passed ∧
      ∀ back, readValue true ⟨passed ++ back, n⟩ = (v, ⟨back, q.pos⟩)) (more : List Char) :
    ∃ blanks, (∀ c ∈ blanks, isAsciiBlank c = true) ∧ m = q.pos + byteLength blanks ∧
      readValue true ⟨text ++ ' ' :: more, n⟩ = (v, ⟨blanks ++ ' ' :: more, q.pos⟩) := by
  obtain ⟨passed, hcrosses, hsame⟩ := h
  obtain ⟨blanks, hblanks, htext, hm⟩ := exists_blanks hcrosses.rest hend
  refine ⟨blanks, hblanks, hm, ?_⟩
  rw [htext, List.append_assoc, hsame]

/-- The last value of a tag, if it is not missing. -/
theorem readValue_lengthened {v : Option Value} (hread : readValue true ⟨text ++ '>' :: rest, n⟩ = (v, q))
    (hne : text ≠ []) (hend : q.skipBlanks = ⟨'>' :: rest, m⟩) (more : List Char) :
    ∃ blanks, (∀ c ∈ blanks, isAsciiBlank c = true) ∧ m = q.pos + byteLength blanks ∧
      readValue true ⟨text ++ ' ' :: more, n⟩ = (v, ⟨blanks ++ ' ' :: more, q.pos⟩) := by
  obtain ⟨c, cs, rfl⟩ := List.exists_cons_of_ne_nil hne
  by_cases hquote : (c == '"' || c == '\'') = true
  · obtain ⟨w, hw, hquoted⟩ : ∃ w, v = some w ∧ w.isQuoted = true := by
      refine ⟨(readQuoted true c ⟨c :: cs ++ '>' :: rest, n⟩).1, (congrArg Prod.fst hread).symm.trans ?_, rfl⟩
      simp only [List.cons_append, readValue, hquote, if_true]
    subst hw
    exact closed_lengthened hend (readQuoted_closed hread hquoted (rest_ne_nil hend)) more
  · by_cases hbraces : c = '\x7b'
    · subst hbraces
      exact closed_lengthened hend (readBraces_closed hread rfl (rest_ne_nil hend)) more
    · have hold := readValue_bare (d := '>') hquote hbraces rfl cs rest n
      obtain ⟨rfl, rfl⟩ := Prod.mk.inj (hold.symm.trans hread)
      obtain ⟨blanks, hblanks, htext, hm⟩ := exists_blanks (List.nil_append _).symm hend
      rw [List.nil_append] at htext
      subst htext
      exact ⟨_, hblanks, hm, readValue_bare (d := ' ') hquote hbraces rfl _ more n⟩

/-! Attributes. -/

/-- An attribute has an equals sign and no value. -/
def Attribute.LacksValue (a : Attribute) : Prop := ∃ v ∈ a.value, v.span.size = 0

theorem Attribute.map_id (a : Attribute) : a.map id = a := by
  obtain ⟨name, text, value⟩ := a
  cases value with
  | none => rfl
  | some v => exact congrArg (fun w => Attribute.mk name text (some w)) v.map_id

theorem Matched.reached {b b' : List Char} {f : Nat → Nat} {p' : Point} (h : Matched b b' f p p')
    (hp : p.rest = b) : p' = ⟨b', f p.pos⟩ := by
  have hpos := h.pos
  obtain ⟨passed, hrest, hrest', -⟩ := h
  have hnil : passed = [] := List.append_left_eq_self.mp (hrest.symm.trans hp)
  subst hnil
  obtain ⟨rest', pos'⟩ := p'
  exact congrArg₂ Point.mk hrest' hpos

/-- Attributes in front of a change are where they were. -/
theorem Run.map_fixed {hasBraces : Bool} {as : List Attribute} {f : Nat → Nat}
    (hrun : Run (nextAttribute? hasBraces) p as q) (hstop : nextAttribute? hasBraces q = none)
    (hfixed : ∀ n ≤ q.skipBlanks.pos, f n = n) :
    as.map (Attribute.map f) = as := by
  obtain ⟨passed, hpassed⟩ := hrun.leads_skipBlanks
  have hself : Matched q.skipBlanks.rest q.skipBlanks.rest f p.skipBlanks p.skipBlanks := by
    refine ⟨passed, hpassed.rest, hpassed.rest, fun n hn => ?_⟩
    have hpos := hpassed.pos
    exact hfixed _ (by omega)
  obtain ⟨q', hrun', hq'⟩ := hrun.attributes_matched rfl hself (Nat.le_refl _)
  have hrest : q'.skipBlanks.rest = q.skipBlanks.rest := by rw [hq'.reached rfl]
  have hstop' : nextAttribute? hasBraces q' = none := by
    unfold nextAttribute? at hstop ⊢
    rw [hrest]
    split at hstop
    · next hend => rw [if_pos hend]
    · cases hstop
  exact (hrun.unique hstop hrun' hstop').1.symm

/-- What is read before a tag changes is read as before. `behind` is what is left of the tag there. -/
theorem front_run {front : List Attribute} {r : Point} {back behind passed : List Char} {k : Nat}
    (hfront : Run (nextAttribute? true) ⟨text ++ back, n⟩ front r)
    (hpassed : Crosses r.skipBlanks ⟨behind ++ back, k⟩ passed) (hne : behind ≠ []) (back' : List Char) :
    (behind ++ back').head? = (behind ++ back).head? ∧ ∃ r', Run (nextAttribute? true) ⟨text ++ back', n⟩ front r' ∧
      Matched (behind ++ back) (behind ++ back') id r.skipBlanks r'.skipBlanks := by
  have hhead : (behind ++ back').head? = (behind ++ back).head? := by
    rw [List.head?_append_of_ne_nil _ hne, List.head?_append_of_ne_nil _ hne]
  obtain ⟨first, hfirst⟩ := hfront.leads_attributes.trans (r.leads_skip isAsciiBlank)
  have htext : text = first ++ passed ++ behind := by
    have hsplit : text ++ back = _ := (hfirst.trans hpassed).rest
    rw [← List.append_assoc] at hsplit
    exact List.append_cancel_right hsplit
  have hstart : Matched (behind ++ back) (behind ++ back') id ⟨text ++ back, n⟩ ⟨text ++ back', n⟩ :=
    ⟨first ++ passed, by simp [htext], by simp [htext], fun _ _ => rfl⟩
  have hroom : (behind ++ back).length ≤ r.skipBlanks.rest.length := by
    have hrest : r.skipBlanks.rest = passed ++ (behind ++ back) := hpassed.rest
    rw [hrest, @List.length_append _ passed]
    exact Nat.le_add_left _ _
  obtain ⟨hblanks, -⟩ := hstart.skip hhead (Nat.le_trans hroom hfront.leads_skipBlanks.length_le)
  obtain ⟨r', hrun, hr⟩ := hfront.attributes_matched hhead hblanks hroom
  rw [List.map_id'' Attribute.map_id] at hrun
  exact ⟨hhead, r', hrun, hr⟩

/-- A step that brings an attribute reads it. -/
theorem attributeStep_single {a : Attribute} (h : attributeStep true p = ([a], q)) :
    (p.rest.head? ≠ some '/' ∧ p.rest.head? ≠ some '\x7b') ∧ readAttribute true p = (a, q) := by
  unfold attributeStep at h
  split at h
  · cases h
  · next hslash =>
    split at h
    · cases h
    · next hbraces =>
      obtain ⟨hread, rfl⟩ := Prod.mk.inj h
      exact ⟨⟨hslash, fun hopen => hbraces ⟨hopen, rfl⟩⟩, by rw [← List.singleton_inj.mp hread]⟩

theorem attributeStep_of_head (h : p.rest.head? ≠ some '/' ∧ p.rest.head? ≠ some '\x7b') :
    attributeStep true p = ([(readAttribute true p).1], (readAttribute true p).2) := by
  rw [attributeStep, if_neg h.1, if_neg fun hbraces => h.2 hbraces.1]

def Point.equalsSign (p : Point) : Point := (p.skip (!endsName ·)).skipBlanks

theorem HasValue.exists_equals (h : HasValue p) : ∃ cs, p.equalsSign.rest = '=' :: cs ∧
    p.behindEquals = Point.skipBlanks ⟨cs, p.equalsSign.pos + 1⟩ := by
  have hsees : p.equalsSign.sees ['='] = true := h.equals
  rw [Point.sees_singleton, beq_iff_eq] at hsees
  obtain ⟨cs, hcs⟩ := List.head?_eq_some_iff.mp hsees
  have hnext : p.equalsSign.next = ⟨cs, p.equalsSign.pos + 1⟩ := by
    rw [Point.next, hcs]
    rfl
  exact ⟨cs, hcs, congrArg Point.skipBlanks hnext⟩

/-- Attributes that are the same up to their equals sign, with anything behind it. -/
theorem HasValue.matched {b b' cs : List Char} {p' : Point} {a : Attribute} (h : HasValue p)
    (hread : readAttribute true p = (a, q)) (hb : b' = '=' :: cs) (hat : p.equalsSign.rest = b)
    (hp : Matched b b' id p p') : readAttribute true p' =
      ({ a with value := (readValue true (Point.skipBlanks ⟨cs, p.equalsSign.pos + 1⟩)).1 },
        (readValue true (Point.skipBlanks ⟨cs, p.equalsSign.pos + 1⟩)).2) := by
  obtain ⟨ds, hds, -⟩ := h.exists_equals
  have hhead : b'.head? = b.head? := by
    rw [hb, ← hat, hds]
    rfl
  have hroom : b.length ≤ p.equalsSign.rest.length := by rw [hat]
  have hroom₁ : b.length ≤ (p.skip (!endsName ·)).rest.length :=
    Nat.le_trans hroom (Point.leads_skip _ _).length_le
  obtain ⟨htext, hspan⟩ := hp.behindName hhead hroom₁
  obtain ⟨hname, -⟩ := hp.skip hhead hroom₁
  obtain ⟨hblanks, -⟩ := hname.skip hhead hroom
  have hequals : p'.equalsSign = ⟨'=' :: cs, p.equalsSign.pos⟩ := hb ▸ hblanks.reached hat
  have hvalue : HasValue p' := by
    constructor
    · rw [htext, h.named]
    · change p'.equalsSign.sees ['='] = true
      rw [hequals, Point.sees_singleton]
      rfl
  have hbehind : p'.behindEquals = Point.skipBlanks ⟨cs, p.equalsSign.pos + 1⟩ := by
    change p'.equalsSign.next.skipBlanks = _
    rw [hequals]
    rfl
  rw [h.readAttribute_eq] at hread
  obtain ⟨rfl, rfl⟩ := Prod.mk.inj hread
  rw [hvalue.readAttribute_eq, hbehind, htext, hspan]
  rfl

/-- If the tag changes behind the equals sign of its last attribute, another value is read there. -/
theorem equals_run {front : List Attribute} {a : Attribute} {r r' : Point}
    (hfront : Run (nextAttribute? true) ⟨text ++ '>' :: rest, n⟩ front r)
    (hstep : nextAttribute? true r = some ([a], r')) (hvalue : HasValue r.skipBlanks)
    (hend : Leads r' ⟨'>' :: rest, m⟩) (back : List Char) : ∃ between k r₁, m = k + byteLength between ∧
      readValue true (Point.skipBlanks ⟨between ++ '>' :: rest, k⟩) = (a.value, r') ∧
      Run (nextAttribute? true) ⟨text ++ back, n⟩ front r₁ ∧
      nextAttribute? true r₁ = some
        ([{ a with value := (readValue true (Point.skipBlanks ⟨between ++ back, k⟩)).1 }],
          (readValue true (Point.skipBlanks ⟨between ++ back, k⟩)).2) := by
  obtain ⟨-, -, hread⟩ := nextAttribute?_eq_some hstep
  obtain ⟨hopen, hread⟩ := attributeStep_single hread
  obtain ⟨es, hes, hbehind⟩ := hvalue.exists_equals
  have hreadValue : readValue true (Point.skipBlanks ⟨es, r.skipBlanks.equalsSign.pos + 1⟩) = (a.value, r') := by
    rw [← hbehind]
    rw [hvalue.readAttribute_eq] at hread
    obtain ⟨rfl, rfl⟩ := Prod.mk.inj hread
    rfl
  obtain ⟨between, hbetween⟩ : Leads ⟨es, r.skipBlanks.equalsSign.pos + 1⟩ ⟨'>' :: rest, m⟩ := by
    have hleads := readValue_leads true (Point.skipBlanks ⟨es, r.skipBlanks.equalsSign.pos + 1⟩)
    rw [hreadValue] at hleads
    exact ((Point.leads_skip _ _).trans hleads).trans hend
  obtain rfl : es = between ++ '>' :: rest := hbetween.rest
  have hequals : r.skipBlanks.equalsSign = ⟨'=' :: between ++ '>' :: rest, r.skipBlanks.equalsSign.pos⟩ :=
    congrArg (Point.mk · _) hes
  obtain ⟨passed, hpassed⟩ : Leads r.skipBlanks r.skipBlanks.equalsSign :=
    (Point.leads_skip _ _).trans (Point.leads_skip _ _)
  rw [hequals] at hpassed
  obtain ⟨hhead, r₁, hrun, hr⟩ := front_run hfront hpassed (List.cons_ne_nil _ _) back
  have hread' := hvalue.matched hread rfl hes hr
  have hopen' : r₁.skipBlanks.rest.head? ≠ some '/' ∧ r₁.skipBlanks.rest.head? ≠ some '\x7b' := by
    rwa [hr.head hhead]
  refine ⟨between, _, r₁, hbetween.pos, hreadValue, hrun, ?_⟩
  rw [nextAttribute?_of_head (hr.head hhead) (by rw [hstep]; rfl), attributeStep_of_head hopen', hread']
  rfl

/-- A last attribute without an equals sign. -/
theorem readAttribute_lengthened {a : Attribute} (hread : readAttribute true ⟨text ++ '>' :: rest, n⟩ = (a, q))
    (hvalue : ¬ HasValue ⟨text ++ '>' :: rest, n⟩) (hne : text ≠ []) (hend : q.skipBlanks = ⟨'>' :: rest, m⟩)
    (hmore : more.head? = some 'l') : ∃ q', readAttribute true ⟨text ++ ' ' :: more, n⟩ = (a, q') ∧
      q'.skipBlanks = ⟨more, m + 1⟩ := by
  have htaken := @takeWhile_delimited (!endsName ·) '>' rfl text rest
  have htaken' := @takeWhile_delimited (!endsName ·) ' ' rfl text more
  have hskip := @Point.skip_delimited (!endsName ·) '>' rfl text rest n
  have hskip' := @Point.skip_delimited (!endsName ·) ' ' rfl text more n
  unfold readAttribute at hread ⊢
  simp only [htaken, hskip] at hread
  simp only [htaken', hskip']
  cases hempty : (text.takeWhile (!endsName ·)).isEmpty with
  | true =>
    -- a stray equals sign
    rw [hempty, if_pos rfl] at hread
    obtain ⟨c, cs, rfl⟩ := List.exists_cons_of_ne_nil hne
    obtain ⟨rfl, rfl⟩ := Prod.mk.inj hread
    obtain ⟨blanks, hblanks, htext, rfl⟩ := exists_blanks (List.nil_append _).symm hend
    obtain rfl : cs = blanks := htext
    refine ⟨_, rfl, ?_⟩
    exact skipBlanks_space hblanks hmore _
  | false =>
    have hequals : (Point.skip (!endsName ·) ⟨text ++ '>' :: rest, n⟩).skipBlanks.sees ['='] = false := by
      rw [Bool.eq_false_iff]
      intro hsees
      exact hvalue ⟨by rw [htaken, hempty], hsees⟩
    rw [hskip] at hequals
    rw [hempty, hequals, if_neg Bool.false_ne_true, if_neg Bool.false_ne_true] at hread
    obtain ⟨rfl, rfl⟩ := Prod.mk.inj hread
    rw [Point.skipBlanks_idem] at hend
    obtain ⟨blanks, hblanks, htext, rfl⟩ := exists_blanks (List.nil_append _).symm hend
    obtain htext : text.dropWhile (!endsName ·) = blanks := htext
    have hbehind := skipBlanks_space hblanks hmore (n + byteLength (text.takeWhile (!endsName ·)))
    have hnone : (Point.mk more (n + byteLength (text.takeWhile (!endsName ·)) + byteLength blanks + 1)).sees ['='] =
        false := by
      rw [Point.sees_singleton, hmore]
      rfl
    rw [htext, hbehind, hnone, if_neg Bool.false_ne_true, if_neg Bool.false_ne_true]
    refine ⟨_, rfl, Point.skipBlanks_self ?_⟩
    intro d hd
    obtain rfl := Option.some.inj (hmore.symm.trans hd)
    rfl

/-- The last step through a tag. -/
theorem attributeStep_lengthened {here : List Attribute}
    (hstep : attributeStep true ⟨text ++ '>' :: rest, n⟩ = (here, q)) (hne : text ≠ [])
    (hend : q.skipBlanks = ⟨'>' :: rest, m⟩) (hvalue : here = [] ∨ ¬ HasValue ⟨text ++ '>' :: rest, n⟩)
    (hmore : more.head? = some 'l') : ∃ q', attributeStep true ⟨text ++ ' ' :: more, n⟩ = (here, q') ∧
      q'.skipBlanks = ⟨more, m + 1⟩ := by
  obtain ⟨c, cs, rfl⟩ := List.exists_cons_of_ne_nil hne
  unfold attributeStep at hstep ⊢
  simp only [List.cons_append, List.head?_cons, Option.some.injEq, and_true] at hstep ⊢
  by_cases hslash : c = '/'
  · subst hslash
    rw [if_pos rfl] at hstep ⊢
    obtain ⟨rfl, rfl⟩ := Prod.mk.inj hstep
    obtain ⟨blanks, hblanks, htext, hm⟩ := exists_blanks (List.nil_append _).symm hend
    rw [List.nil_append] at htext
    subst htext
    refine ⟨_, rfl, ?_⟩
    rw [hm]
    exact skipBlanks_space hblanks hmore _
  · rw [if_neg hslash] at hstep ⊢
    by_cases hbraces : c = '\x7b'
    · subst hbraces
      rw [if_pos rfl] at hstep ⊢
      obtain ⟨rfl, rfl⟩ := Prod.mk.inj hstep
      obtain ⟨passed, hbraced, hcrosses⟩ := Point.pastBraces_braced rfl (rest_ne_nil hend)
      have hsplit : '\x7b' :: cs ++ '>' :: rest = passed ++ _ := hcrosses.rest
      obtain ⟨blanks, hblanks, htext, hm⟩ := exists_blanks hsplit hend
      have hpast := hbraced.past (blanks ++ ' ' :: more) n
      rw [← List.append_assoc, ← htext, ← hcrosses.pos, List.cons_append] at hpast
      rw [hpast, hm]
      exact ⟨_, rfl, skipBlanks_space hblanks hmore _⟩
    · rw [if_neg hbraces] at hstep ⊢
      obtain ⟨rfl, rfl⟩ := Prod.mk.inj hstep
      obtain ⟨q', hread, hq⟩ :=
        readAttribute_lengthened rfl (hvalue.resolve_left (List.cons_ne_nil _ _)) hne hend hmore
      rw [List.cons_append] at hread
      rw [hread]
      exact ⟨q', rfl, hq⟩

/-- The last attribute of a tag has a value, which is not missing. -/
theorem valued_lengthened {front : List Attribute} {a : Attribute} {r : Point}
    (hfront : Run (nextAttribute? true) ⟨text ++ '>' :: rest, n⟩ front r)
    (hstep : nextAttribute? true r = some ([a], q)) (hvalue : HasValue r.skipBlanks)
    (hend : q.skipBlanks = ⟨'>' :: rest, m⟩) (hpresent : ¬ a.LacksValue) (hmore : more.head? = some 'l') :
    ∃ q', Run (nextAttribute? true) ⟨text ++ ' ' :: more, n⟩ (front ++ [a]) q' ∧ q'.skipBlanks = ⟨more, m + 1⟩ := by
  have hlast : Leads q ⟨'>' :: rest, m⟩ := hend ▸ q.leads_skip isAsciiBlank
  obtain ⟨between, k, r', hm, hold, hfront', hstep'⟩ := equals_run hfront hstep hvalue hlast (' ' :: more)
  have hnonblank : between.dropWhile isAsciiBlank ≠ [] := by
    intro hnil
    have hblanks : Point.skipBlanks ⟨between ++ '>' :: rest, k⟩ = ⟨'>' :: rest, k + byteLength between⟩ :=
      Point.skip_append (List.dropWhile_eq_nil_iff.mp hnil) (by rintro d ⟨⟩; rfl)
    rw [hblanks] at hold
    exact hpresent ⟨_, (congrArg Prod.fst hold).symm, Nat.sub_self _⟩
  rw [Point.skipBlanks, Point.skip_within hnonblank] at hold
  rw [Point.skipBlanks, Point.skip_within hnonblank] at hstep'
  obtain ⟨blanks, hblanks, hm, hnew⟩ := readValue_lengthened hold hnonblank hend more
  rw [hnew] at hstep'
  refine ⟨_, hfront'.trans (.single hstep'), ?_⟩
  rw [hm]
  exact skipBlanks_space hblanks hmore _

/-- The last step through a tag brings nothing, or an attribute without an equals sign. -/
theorem unvalued_lengthened {front here : List Attribute} {r : Point}
    (hfront : Run (nextAttribute? true) ⟨text ++ '>' :: rest, n⟩ front r)
    (hstep : nextAttribute? true r = some (here, q)) (hvalue : here = [] ∨ ¬ HasValue r.skipBlanks)
    (hend : q.skipBlanks = ⟨'>' :: rest, m⟩) (hmore : more.head? = some 'l') :
    ∃ q', Run (nextAttribute? true) ⟨text ++ ' ' :: more, n⟩ (front ++ here) q' ∧ q'.skipBlanks = ⟨more, m + 1⟩ := by
  obtain ⟨-, hopen, hread⟩ := nextAttribute?_eq_some hstep
  obtain ⟨behind, hbehind⟩ : Leads r.skipBlanks ⟨'>' :: rest, m⟩ := hend ▸ (Run.single hstep).leads_skipBlanks
  have hpoint : r.skipBlanks = ⟨behind ++ '>' :: rest, r.skipBlanks.pos⟩ := congrArg (Point.mk · _) hbehind.rest
  have hne : behind ≠ [] := by
    rintro rfl
    rw [hpoint] at hopen
    exact hopen rfl
  have hself : Crosses r.skipBlanks ⟨behind ++ '>' :: rest, r.skipBlanks.pos⟩ [] := ⟨hbehind.rest, rfl⟩
  obtain ⟨hhead, r', hfront', hr⟩ := front_run hfront hself hne (' ' :: more)
  rw [hpoint] at hread hvalue
  obtain ⟨q', hread', hq⟩ := attributeStep_lengthened hread hne hend hvalue hmore
  have hnext := nextAttribute?_of_head (hr.head hhead) (by rw [hstep]; rfl)
  rw [hr.reached hbehind.rest, id, hread'] at hnext
  exact ⟨q', hfront'.trans (.single hnext), hq⟩

/-- In front of the new attribute the tag is read as before. -/
theorem lengthened_run {as : List Attribute} (hrun : Run (nextAttribute? true) ⟨text ++ '>' :: rest, n⟩ as q)
    (hend : q.skipBlanks = ⟨'>' :: rest, m⟩) (hvalues : ∀ a ∈ as, ¬ a.LacksValue)
    (hmore : more.head? = some 'l') : ∃ q', Run (nextAttribute? true) ⟨text ++ ' ' :: more, n⟩ as q' ∧
      q'.skipBlanks = ⟨more, m + 1⟩ := by
  -- only the last step can see what stands behind the tag, so the run is split in front of it
  rcases hrun.last with ⟨rfl, rfl⟩ | ⟨r, front, here, hfront, hstep, rfl⟩
  · obtain ⟨blanks, hblanks, htext, hm⟩ := exists_blanks (List.nil_append _).symm hend
    obtain rfl : text = blanks := htext
    refine ⟨_, .refl _, ?_⟩
    rw [hm]
    exact skipBlanks_space hblanks hmore n
  · by_cases hvalue : here ≠ [] ∧ HasValue r.skipBlanks
    · obtain ⟨a, rfl⟩ : ∃ a, here = [a] :=
        List.length_eq_one_iff.mp (Nat.le_antisymm (nextAttribute?_length hstep) (List.length_pos_iff.mpr hvalue.1))
      have hpresent := hvalues a (List.mem_append_right _ List.mem_cons_self)
      exact valued_lengthened hfront hstep hvalue.2 hend hpresent hmore
    · refine unvalued_lengthened hfront hstep ?_ hend hmore
      exact or_iff_not_imp_left.mpr fun hsome hhas => hvalue ⟨hsome, hhas⟩

/-! A value that is missing. -/

theorem readValue_leads_next {cs : List Char} (hrest : p.rest = c :: cs) (hc : endsBareValue c = false) :
    Leads p.next (readValue true p).2 := by
  unfold readValue
  rw [hrest]
  dsimp only
  split
  · exact (quotedParts_leads rfl).trans (Point.leads_next _)
  · split
    · next hbraces =>
      rw [Bool.and_true, beq_iff_eq] at hbraces
      exact Point.leads_next_pastBraces (by rw [hrest, hbraces]; rfl)
    · exact Point.leads_next_skip hrest (by simp [hc])

/-- A value is missing where the tag ends behind the equals sign. -/
theorem readValue_missing {v : Value} (hread : readValue true p.skipBlanks = (some v, q)) (hsize : v.span.size = 0)
    (hne : q.rest ≠ []) : q = p.skipBlanks ∧ q.rest.head? = some '>' := by
  have hself : p.skipBlanks.skipBlanks = p.skipBlanks := Point.skipBlanks_idem p
  generalize p.skipBlanks = s at hread hself ⊢
  have hleads : Leads s q := by
    have hvalue := readValue_leads true s
    rwa [hread] at hvalue
  have hspan := readValue_span (congrArg Prod.fst hread)
  rw [hread] at hspan
  rw [hspan] at hsize
  obtain rfl : q = s := hleads.unique (.refl s) (Nat.le_antisymm (Nat.le_of_sub_eq_zero hsize) hleads.pos_le)
  refine ⟨rfl, ?_⟩
  obtain ⟨c, cs, hrest⟩ := List.exists_cons_of_ne_nil hne
  have hends : endsBareValue c = true := by
    by_contra hbare
    have hless := (readValue_leads_next hrest (Bool.eq_false_iff.mpr hbare)).length_lt hrest
    rw [hread, hrest, List.length_cons] at hless
    omega
  have hblank : isAsciiBlank c = false := by
    have hdropped : q.rest.dropWhile isAsciiBlank = q.rest := congrArg Point.rest hself
    rw [hrest] at hdropped
    simpa using List.dropWhile_eq_self_iff.mp hdropped
  rw [endsBareValue, hblank, Bool.false_or, beq_iff_eq] at hends
  rw [hrest, hends]
  rfl

/-- The new attribute is taken for the value that is missing in front of it. -/
theorem dangling_run {as : List Attribute} {a : Attribute} (hrun : Run (nextAttribute? true) ⟨text ++ '>' :: rest, n⟩ as q)
    (hend : q.skipBlanks = ⟨'>' :: rest, m⟩) (ha : a ∈ as) (hmissing : a.LacksValue) (hmore : more.head? = some 'l') :
    ∃ front r, as = front ++ [a] ∧ Run (nextAttribute? true) ⟨text ++ ' ' :: more, n⟩ front r ∧
      nextAttribute? true r = some ([{ a with value := (readValue true ⟨more, m + 1⟩).1 }],
        (readValue true ⟨more, m + 1⟩).2) := by
  obtain ⟨v, hv, hsize⟩ := hmissing
  obtain ⟨front, back, rfl⟩ := List.append_of_mem ha
  obtain ⟨r, r', hfront, hstep, hback⟩ := hrun.split_at fun _ _ _ => nextAttribute?_length
  have hlast : Leads r' ⟨'>' :: rest, m⟩ := hend ▸ hback.leads_attributes.trans (q.leads_skip isAsciiBlank)
  have hvalue : HasValue r.skipBlanks := by
    obtain ⟨-, -, hread⟩ := nextAttribute?_eq_some hstep
    obtain ⟨-, hread⟩ := attributeStep_single hread
    have hmem : v ∈ (readAttribute true r.skipBlanks).1.value := by rwa [hread]
    exact hasValue_of_mem hmem
  obtain ⟨between, k, r₁, hm, hold, hfront', hstep'⟩ := equals_run hfront hstep hvalue hlast (' ' :: more)
  have hrest : r'.rest ≠ [] := by
    obtain ⟨passed, hpassed⟩ := hlast
    rw [hpassed.rest]
    simp
  rw [hv] at hold
  obtain ⟨hself, hhead⟩ := readValue_missing hold hsize hrest
  have hsame : r'.skipBlanks = r' := by
    rw [hself]
    exact Point.skipBlanks_idem _
  -- behind it nothing is left to be read
  obtain ⟨rfl, rfl⟩ : back = [] ∧ r' = q := by
    cases hback with
    | refl => exact ⟨rfl, rfl⟩
    | step h =>
      rw [nextAttribute?, hsame, if_pos (.inr hhead)] at h
      cases h
  rw [hsame] at hend
  obtain ⟨blanks, hblanks, htext, -⟩ := exists_blanks (List.nil_append _).symm (hself.symm.trans hend)
  obtain rfl : between = blanks := htext
  refine ⟨front, r₁, rfl, hfront', ?_⟩
  rwa [skipBlanks_space hblanks hmore, ← hm] at hstep'

end ClassSort.Markup
