import ClassSort.Proofs.Markup.Matched
import Mathlib.Data.List.DropRight

/-!
Tags at matching points. What a tag says of its name, its language and its values is the same in both
documents, and so is what a scan finds behind points that match to the end.
-/

namespace ClassSort

def LangAttribute.map (f : Nat → Nat) (a : LangAttribute) : LangAttribute :=
  ⟨a.span.map f, a.value.map (Span.map f)⟩

def StyleBlock.map (f : Nat → Nat) (block : StyleBlock) : StyleBlock :=
  ⟨f block.tagEnd, block.lang.map (LangAttribute.map f), block.body.map f⟩

namespace Markup

def Finding.map (f : Nat → Nat) : Finding → Finding
  | .script content dialect => .script (content.map f) dialect
  | .style block => .style (block.map f)
  | .classes v => .classes (v.map f)

theorem Value.map_id (v : Value) : v.map id = v := by
  have hpart (part : Part) : part.map id = part := by cases part <;> rfl
  exact congrArg (Value.mk v.span v.isQuoted) (List.map_id'' hpart v.parts)

theorem Finding.map_id (found : Finding) : found.map id = found := by
  cases found with
  | script => rfl
  | style block =>
    obtain ⟨tagEnd, lang, body⟩ := block
    cases lang with
    | none => rfl
    | some lang =>
      obtain ⟨span, value⟩ := lang
      cases value <;> rfl
  | classes v => exact congrArg classes v.map_id

/-- Two tags that say the same. Their values are `w` and `w'` and what was read behind these. -/
structure TagMatched (f : Nat → Nat) (w w' : List Value) (t t' : Tag) : Prop where
  name : t'.name = t.name
  dialect : t'.dialect = t.dialect
  lang : t'.lang = t.lang.map (LangAttribute.map f)
  classes : ∃ added, t.classes = added ++ w ∧ t'.classes = added.map (Value.map f) ++ w'

variable {b b' source source' : List Char} {f : Nat → Nat} {p p' q q' : Point} {w w' : List Value}
  {t t' : Tag} {hasBraces : Bool}

/-- A range between two matching points reads the same in both documents. -/
theorem Matched.slice (h : Matched b b' f p p') (hp : Leads ⟨source, 0⟩ p) (hp' : Leads ⟨source', 0⟩ p')
    (hq : Leads p q) (hroom : b.length ≤ q.rest.length) {s : Span} (hstart : p.pos ≤ s.start)
    (hforward : s.start ≤ s.stop) (hstop : s.stop ≤ q.pos) :
    sliceChars? source' (s.map f) = sliceChars? source s := by
  have hmap : s.map f = Span.shift p'.pos ⟨s.start - p.pos, s.stop - p.pos⟩ := by
    rw [Span.map, h.shift hq hroom hstart (by omega), h.shift hq hroom (by omega) hstop, Span.shift]
    simp only [Nat.add_comm p'.pos]
  have hself : s = Span.shift p.pos ⟨s.start - p.pos, s.stop - p.pos⟩ := by
    rw [Span.shift, Nat.sub_add_cancel hstart, Nat.sub_add_cancel (by omega)]
  obtain ⟨front, hfront⟩ := hp
  obtain ⟨front', hfront'⟩ := hp'
  obtain ⟨cs, hcrosses⟩ := hq
  obtain ⟨ahead, -, hrest', -⟩ := h.crosses hcrosses hroom
  have hwithin : s.stop - p.pos ≤ byteLength cs := by
    have hpos := hcrosses.pos
    omega
  have hsource : source = front ++ cs ++ q.rest := by
    rw [List.append_assoc, ← hcrosses.rest]
    exact hfront.rest
  have hsource' : source' = front' ++ cs ++ (ahead ++ b') := by
    rw [List.append_assoc, ← hrest']
    exact hfront'.rest
  have hpos : p.pos = byteLength front := by rw [hfront.pos, Nat.zero_add]
  have hpos' : p'.pos = byteLength front' := by rw [hfront'.pos, Nat.zero_add]
  have hright : sliceChars? source s = sliceChars? cs ⟨s.start - p.pos, s.stop - p.pos⟩ := by
    refine (congrArg (sliceChars? source) hself).trans ?_
    rw [hsource]
    generalize p.pos = n at hpos hwithin ⊢
    subst hpos
    exact sliceChars?_embedded hwithin
  rw [hright, hmap, hpos', hsource']
  exact sliceChars?_embedded hwithin

theorem Value.Between.content {m n : Nat} {v : Value} (h : v.Between m n) :
    m ≤ v.content.start ∧ v.content.start ≤ v.content.stop ∧ v.content.stop ≤ n := by
  have hstart := h.start
  have hstop := h.stop
  have hordered := h.forward.ordered
  unfold Value.content
  split
  · next hquoted =>
    have hsize : 2 ≤ v.span.stop - v.span.start := of_decide_eq_true ((Bool.and_eq_true ..).mp hquoted).2
    simp only [Span.inner]
    omega
  · exact ⟨hstart, hordered, hstop⟩

theorem Value.content_map {v : Value} {k : Nat} (hordered : v.span.start ≤ v.span.stop)
    (hshift : ∀ n, v.span.start ≤ n → n ≤ v.span.stop → f n = k + (n - v.span.start)) :
    (v.map f).content = v.content.map f := by
  have hstart := hshift _ (Nat.le_refl _) hordered
  have hstop := hshift _ hordered (Nat.le_refl _)
  have hsize : (v.map f).span.size = v.span.size := by
    simp only [Value.map, Span.map, Span.size]
    omega
  unfold Value.content
  rw [hsize]
  show (if (v.isQuoted && decide (2 ≤ v.span.size)) = true then (v.span.map f).inner else v.span.map f) = _
  split
  · next hquoted =>
    have hsize : 2 ≤ v.span.stop - v.span.start := of_decide_eq_true ((Bool.and_eq_true ..).mp hquoted).2
    have hfirst := hshift (v.span.start + 1) (by omega) (by omega)
    have hlast := hshift (v.span.stop - 1) (by omega) (by omega)
    simp only [Span.map, Span.inner, Span.mk.injEq]
    omega
  · rfl

def Tag.named (name : List Char) : Tag := ⟨name, some .javaScript, none, []⟩

theorem TagMatched.start (name : List Char) : TagMatched f [] [] (.named name) (.named name) :=
  ⟨rfl, rfl, rfl, [], rfl, rfl⟩

theorem TagMatched.withValue (ht : TagMatched f w w' t t') (isScript isClass : Bool)
    (written : Option Script.Dialect → Option Script.Dialect) (v : Value) :
    TagMatched f w w'
      (if isScript then { t with dialect := written t.dialect }
        else if isClass then { t with classes := v :: t.classes } else t)
      (if isScript then { t' with dialect := written t'.dialect }
        else if isClass then { t' with classes := v.map f :: t'.classes } else t') := by
  cases isScript with
  | true => exact ⟨ht.name, congrArg written ht.dialect, ht.lang, ht.classes⟩
  | false =>
    cases isClass with
    | true =>
      obtain ⟨added, hclasses, hclasses'⟩ := ht.classes
      exact ⟨ht.name, ht.dialect, ht.lang, v :: added, congrArg (v :: ·) hclasses,
        congrArg (v.map f :: ·) hclasses'⟩
    | false => exact ht

/-- One more attribute. -/
theorem TagMatched.add (ht : TagMatched f w w' t t') {a : Attribute}
    (hcontent : ∀ v ∈ a.value, (v.map f).content = v.content.map f ∧
      sliceChars? source' (v.content.map f) = sliceChars? source v.content) :
    TagMatched f w w' (t.add source a) (t'.add source' (a.map f)) := by
  obtain ⟨name, dialect, lang, classes⟩ := t
  obtain ⟨name', dialect', lang', classes'⟩ := t'
  obtain ⟨hname, hdialect, hlang, hclasses⟩ := ht
  dsimp only at hname hdialect hlang hclasses
  subst hname hdialect hlang
  obtain ⟨label, text, value⟩ := a
  unfold Tag.add Attribute.map Tag.isStyle Tag.isScript
  cases value with
  | none =>
    by_cases hlang : (name' == "style".toList && text == "lang".toList) = true
    · simp only [if_pos hlang, Option.map_none]
      exact ⟨rfl, rfl, rfl, hclasses⟩
    · simp only [if_neg hlang, Option.map_none]
      exact ⟨rfl, rfl, rfl, hclasses⟩
  | some v =>
    obtain ⟨hcontent, hslice⟩ := hcontent v rfl
    simp only [Option.map_some, Option.getD_some, hcontent, hslice]
    by_cases hlang : (name' == "style".toList && text == "lang".toList) = true
    · simp only [if_pos hlang]
      let l : LangAttribute := ⟨⟨label.start, v.span.stop⟩, some v.content⟩
      have ht : TagMatched f w w' ⟨name', dialect', some l, classes⟩
          ⟨name', dialect', some (l.map f), classes'⟩ := ⟨rfl, rfl, rfl, hclasses⟩
      exact ht.withValue ..
    · simp only [if_neg hlang]
      have ht : TagMatched f w w' ⟨name', dialect', lang, classes⟩
          ⟨name', dialect', lang.map (LangAttribute.map f), classes'⟩ := ⟨rfl, rfl, rfl, hclasses⟩
      exact ht.withValue ..

/-! What is read leaves less to be read. -/

theorem Point.leads_next_skip {test : Char → Bool} {c : Char} {cs : List Char} (hrest : p.rest = c :: cs)
    (hc : test c = true) : Leads p.next (p.skip test) := by
  refine ⟨cs.takeWhile test, ?_, ?_⟩
  · simp [Point.next, Point.skip, hrest, List.dropWhile_cons_of_pos hc, List.takeWhile_append_dropWhile]
  · simp [Point.next, Point.skip, hrest, List.takeWhile_cons_of_pos hc, byteLength, Nat.add_assoc]

theorem readAttribute_leads_next {c : Char} {cs : List Char} (hrest : p.rest = c :: cs) :
    Leads p.next (readAttribute hasBraces p).2 := by
  unfold readAttribute
  dsimp only
  split
  · exact .refl _
  · next hname =>
    have hc : (!endsName c) = true := by
      by_contra hends
      rw [hrest, List.takeWhile_cons_of_neg (p := (!endsName ·)) hends] at hname
      exact hname rfl
    have hbehind : Leads p.next (p.skip (!endsName ·)) := Point.leads_next_skip hrest hc
    have hequals := hbehind.trans (Point.leads_skip isAsciiBlank _)
    split
    · exact ((hequals.trans (Point.leads_next _)).trans (Point.leads_skip isAsciiBlank _)).trans
        (readValue_leads hasBraces _)
    · exact hequals

variable {fuel fuel' : Nat} {u : Tag} {stop : Option Nat}

/-- One step through a tag: past a slash or an expression in braces, or over an attribute. -/
def tagStep (source : List Char) (hasBraces : Bool) (t : Tag) (p : Point) : Tag × Point :=
  if p.rest.head? = some '/' then (t, p.next)
  else if p.rest.head? = some '\x7b' ∧ hasBraces = true then (t, p.pastBraces)
  else (t.add source (readAttribute hasBraces p).1, (readAttribute hasBraces p).2)

theorem readAttributes_succ (source : List Char) (hasBraces : Bool) (fuel : Nat) (t : Tag) (p : Point) :
    readAttributes source hasBraces (fuel + 1) t p =
      if p.skipBlanks.rest.head? = none then (t, none, p.skipBlanks)
      else if p.skipBlanks.rest.head? = some '>' then (t, some p.skipBlanks.pos, p.skipBlanks.next)
      else readAttributes source hasBraces fuel (tagStep source hasBraces t p.skipBlanks).1
        (tagStep source hasBraces t p.skipBlanks).2 := by
  rw [readAttributes, tagStep]
  generalize p.skipBlanks = q
  dsimp only
  split
  · next hrest => simp [hrest]
  · next c cs hrest =>
    simp only [hrest, List.head?_cons, reduceCtorEq, if_false, Option.some.injEq, beq_iff_eq,
      Bool.and_eq_true]
    split
    · rfl
    · split
      · rfl
      · split
        · rfl
        · rfl

theorem tagStep_leads_next (source : List Char) (hasBraces : Bool) (t : Tag) {c : Char} {cs : List Char}
    (hrest : p.rest = c :: cs) : Leads p.next (tagStep source hasBraces t p).2 := by
  unfold tagStep
  split
  · exact .refl _
  · split
    · next hbraces => exact Point.leads_next_pastBraces hbraces.1
    · exact readAttribute_leads_next hrest

theorem Point.skip_skip (test : Char → Bool) (p : Point) : (p.skip test).skip test = p.skip test := by
  have hrest : (p.rest.dropWhile test).dropWhile test = p.rest.dropWhile test :=
    List.dropWhile_idempotent test p.rest
  have hnone : (p.rest.dropWhile test).takeWhile test = [] := by
    have hall := List.takeWhile_append_dropWhile (p := test) (l := p.rest.dropWhile test)
    rw [hrest] at hall
    exact List.append_left_eq_self.mp hall
  simp [Point.skip, hrest, hnone, byteLength]

theorem readAttributes_skipBlanks (source : List Char) (hasBraces : Bool) (fuel : Nat) (t : Tag) (p : Point) :
    readAttributes source hasBraces (fuel + 1) t p.skipBlanks =
      readAttributes source hasBraces (fuel + 1) t p := by
  have hblanks : p.skipBlanks.skipBlanks = p.skipBlanks := p.skip_skip isAsciiBlank
  rw [readAttributes_succ, readAttributes_succ, hblanks]

/-! Tags and what a scan finds, at matching points. -/

/-- The value of an attribute that is read at matching points is the same text in both documents. -/
theorem Matched.content (h : Matched b b' f p p') (hp : Leads ⟨source, 0⟩ p)
    (hp' : Leads ⟨source', 0⟩ p') (hroom : b.length ≤ (readAttribute hasBraces p).2.rest.length) :
    ∀ v ∈ (readAttribute hasBraces p).1.value, (v.map f).content = v.content.map f ∧
      sliceChars? source' (v.content.map f) = sliceChars? source v.content := by
  intro v hv
  have hafter := (readAttribute_standing hasBraces p).1
  have hbetween := (readAttribute_forward hasBraces p).2 v hv
  obtain ⟨hstart, hordered, hstop⟩ := hbetween.content
  constructor
  · apply Value.content_map (k := p'.pos + (v.span.start - p.pos)) hbetween.forward.ordered
    intro n hle hn
    have hfrom := hbetween.start
    rw [h.shift hafter hroom (Nat.le_trans hfrom hle) (Nat.le_trans hn hbetween.stop)]
    omega
  · exact h.slice hp hp' hafter hroom hstart hordered hstop

theorem tagStep_matched (hb : b'.head? = b.head?) (h : Matched b b' f p p') (hp : Leads ⟨source, 0⟩ p)
    (hp' : Leads ⟨source', 0⟩ p') (ht : TagMatched f w w' t t')
    (hroom : b.length ≤ (tagStep source hasBraces t p).2.rest.length) :
    TagMatched f w w' (tagStep source hasBraces t p).1 (tagStep source' hasBraces t' p').1 ∧
      Matched b b' f (tagStep source hasBraces t p).2 (tagStep source' hasBraces t' p').2 := by
  unfold tagStep at hroom ⊢
  rw [h.head hb]
  split
  · next hslash =>
    rw [if_pos hslash] at hroom
    exact ⟨ht, h.next hb hroom⟩
  · next hslash =>
    rw [if_neg hslash] at hroom
    split
    · next hbraces =>
      rw [if_pos hbraces] at hroom
      exact ⟨ht, h.pastBraces hb hbraces.1 hroom⟩
    · next hbraces =>
      rw [if_neg hbraces] at hroom
      obtain ⟨hattribute, hafter⟩ := readAttribute_matched hb h hroom
      rw [hattribute]
      exact ⟨ht.add (h.content hp hp' hroom), hafter⟩

theorem readAttributes_matched (hb : b'.head? = b.head?) (h : Matched b b' f p p') (hp : Leads ⟨source, 0⟩ p)
    (hp' : Leads ⟨source', 0⟩ p') (ht : TagMatched f w w' t t') (hfuel : p.rest.length < fuel)
    (hfuel' : p'.rest.length < fuel') (hread : readAttributes source hasBraces fuel t p = (u, stop, q))
    (hroom : b.length ≤ q.rest.length) :
    ∃ u' q', readAttributes source' hasBraces fuel' t' p' = (u', stop.map f, q') ∧ TagMatched f w w' u u' ∧
      Matched b b' f q q' := by
  induction fuel generalizing p p' t t' fuel' with
  | zero => omega
  | succ fuel ih =>
    obtain ⟨fuel', rfl⟩ : ∃ n, fuel' = n + 1 := ⟨fuel' - 1, by omega⟩
    have hlead := (readAttributes_standing ((readAttributes_skipBlanks ..).trans hread)).1
    have hblanks : Leads p p.skipBlanks := p.leads_skip isAsciiBlank
    have hblanks' : Leads p' p'.skipBlanks := p'.leads_skip isAsciiBlank
    obtain ⟨h, -⟩ := h.skip hb (Nat.le_trans hroom hlead.length_le)
    change Matched b b' f p.skipBlanks p'.skipBlanks at h
    have hless := hblanks.length_le
    have hless' := hblanks'.length_le
    rw [readAttributes_succ] at hread ⊢
    rw [h.head hb]
    split
    · next hnone =>
      rw [if_pos hnone] at hread
      cases hread
      exact ⟨t', _, rfl, ht, h⟩
    · next hsome =>
      rw [if_neg hsome] at hread
      split
      · next hend =>
        rw [if_pos hend] at hread
        cases hread
        exact ⟨t', _, by rw [Option.map_some, h.pos], ht, h.next hb hroom⟩
      · next hend =>
        rw [if_neg hend] at hread
        obtain ⟨c, hc⟩ := Option.ne_none_iff_exists'.mp hsome
        obtain ⟨cs, hrest⟩ := List.head?_eq_some_iff.mp hc
        obtain ⟨cs', hrest'⟩ := h.cons hb hrest
        have hlead₁ := tagStep_leads_next source hasBraces t hrest
        have hlead₁' := tagStep_leads_next source' hasBraces t' hrest'
        have hless₁ := hlead₁.length_lt hrest
        have hless₁' := hlead₁'.length_lt hrest'
        have hsize := congrArg List.length hrest
        have hsize' := congrArg List.length hrest'
        rw [List.length_cons] at hsize hsize'
        have hp := hp.trans hblanks
        have hp' := hp'.trans hblanks'
        obtain ⟨ht, hnext⟩ := tagStep_matched hb h hp hp' ht
          (Nat.le_trans hroom (readAttributes_standing hread).1.length_le)
        exact ih hnext (hp.trans ((Point.leads_next _).trans hlead₁))
          (hp'.trans ((Point.leads_next _).trans hlead₁')) ht (by omega) (by omega) hread

/-- What is not neutral is no letter. -/
theorem toLower_of_not_neutral {c : Char} (h : ¬ Neutral c) : c.toLower = c := by
  by_cases hdouble : c = '"'
  · subst hdouble; rfl
  · by_cases hsingle : c = '\''
    · subst hsingle; rfl
    · by_cases hbrace : c = '\x7b'
      · subst hbrace; rfl
      · by_cases hangle : c = '<'
        · subst hangle; rfl
        · exact absurd ⟨hdouble, hsingle, hbrace, hangle⟩ h

theorem Diverge.lower (h : Diverge b b') : Diverge (b.map Char.toLower) (b'.map Char.toLower) := by
  obtain rfl | ⟨x, text, text', rfl, rfl, hx⟩ := h
  · exact .inl rfl
  · have hlower := toLower_of_not_neutral hx
    exact .inr ⟨x, _, _, congrArg (· :: _) hlower, congrArg (· :: _) hlower, hx⟩

theorem closes_eq (name cs : List Char) : closes name cs =
    (['<', '/'].isPrefixOf cs && name.isPrefixOf ((cs.drop 2).map Char.toLower)) := by
  have hname (rest : List Char) : ((rest.take name.length).map Char.toLower == name) =
      name.isPrefixOf (rest.map Char.toLower) := by
    rw [Bool.eq_iff_iff, beq_iff_eq, List.isPrefixOf_iff_prefix, List.prefix_iff_eq_take, List.map_take,
      eq_comm]
  unfold closes
  split
  · next rest => exact hname rest
  · next hno =>
    symm
    rw [Bool.and_eq_false_imp]
    intro hmark
    obtain ⟨rest, hrest⟩ := List.isPrefixOf_iff_prefix.mp hmark
    exact absurd hrest.symm (hno rest)

theorem blind_closes {name : List Char} (hname : ∀ c ∈ name, Neutral c) : Blind (closes name) := by
  intro text b b' hb
  rw [closes_eq, closes_eq, blind_tagMark (d := '/') rfl (by decide) text b b' hb]
  cases hmark : ['<', '/'].isPrefixOf (text ++ b) with
  | false => rfl
  | true =>
    -- the mark ends in front of what may be exchanged
    match text with
    | [] =>
      cases hb with
      | same => rfl
      | quoted hquote => rcases hquote with rfl | rfl <;> simp at hmark
      | braces => simp at hmark
      | tag hletter =>
        obtain ⟨-, rfl⟩ : True ∧ '/' = ‹Char› := by simpa using hmark
        cases hletter
    | [c] =>
      cases hb with
      | same => rfl
      | quoted hquote => rcases hquote with rfl | rfl <;> simp at hmark
      | braces => simp at hmark
      | tag => simp at hmark
    | _ :: _ :: text =>
      simp only [List.cons_append, List.drop_succ_cons, List.drop_zero, List.map_append, Bool.true_and]
      exact hb.diverge.lower.isPrefixOf hname _

/-- Letters that are made small stay neutral. -/
theorem Neutral.toLower {c : Char} (hc : Neutral c) : Neutral c.toLower := by
  unfold Char.toLower
  split
  · next hcapital =>
    have hsmall : (c.val + ('a'.val - 'A'.val)).toNat = c.val.toNat + 32 := by
      have hlast : c.val.toNat ≤ 90 := hcapital.2
      rw [UInt32.toNat_add]
      apply Nat.mod_eq_of_lt
      show c.val.toNat + 32 < 2 ^ 32
      omega
    -- the letters stand between all of these
    have hne (d : Char) (hd : d.val = c.val + ('a'.val - 'A'.val)) (x : Char)
        (hx : x.val.toNat ≤ 64 ∨ 123 ≤ x.val.toNat) : d ≠ x := by
      rintro rfl
      have hfirst : 65 ≤ c.val.toNat := hcapital.1
      have hlast : c.val.toNat ≤ 90 := hcapital.2
      rw [hd, hsmall] at hx
      omega
    exact ⟨hne _ rfl '"' (by decide), hne _ rfl '\'' (by decide), hne _ rfl '\x7b' (by decide),
      hne _ rfl '<' (by decide)⟩
  · exact hc

def Tag.finish (name : List Char) (t : Tag) (stop : Option Nat) (p : Point) : List Finding × Point :=
  match stop with
  | none => (t.found, p)
  | some tagEnd =>
    if t.isScript || t.isStyle then
      let close := p.find (closes name)
      let body : Span := ⟨p.pos, close.pos⟩
      let behind :=
        if t.isStyle then [Finding.style ⟨tagEnd, t.lang, body⟩]
        else (t.dialect.map fun d => Finding.script body d).toList
      (t.found ++ behind, close)
    else (t.found, p)

def Point.tagName (p : Point) : List Char := (p.next.rest.takeWhile isTagLetter).map Char.toLower

def Point.inTag (p : Point) : Point := p.next.skip isTagLetter

theorem readTag_eq (h : readAttributes source hasBraces (p.inTag.rest.length + 1) (.named p.tagName) p.inTag =
    (t, stop, q)) : readTag source hasBraces p = t.finish p.tagName stop q := by
  unfold Point.tagName Point.inTag Tag.named at h
  unfold readTag
  simp only [h]
  rfl

theorem exists_readTag (source : List Char) (hasBraces : Bool) (p : Point) : ∃ t stop q,
    readAttributes source hasBraces (p.inTag.rest.length + 1) (.named p.tagName) p.inTag = (t, stop, q) ∧
      readTag source hasBraces p = t.finish p.tagName stop q :=
  ⟨_, _, _, rfl, readTag_eq rfl⟩

theorem Point.tagName_neutral (p : Point) : ∀ c ∈ p.tagName, Neutral c := by
  intro c hc
  obtain ⟨d, hd, rfl⟩ := List.mem_map.mp hc
  have hletter : isTagLetter d = true := List.mem_takeWhile_imp hd
  refine Neutral.toLower ⟨?_, ?_, ?_, ?_⟩ <;> rintro rfl <;> cases hletter

theorem Point.leads_inTag (p : Point) : Leads p.next p.inTag := p.next.leads_skip _

theorem Matched.inTag (hb : b'.head? = b.head?) (h : Matched b b' f p p')
    (hroom : b.length ≤ p.inTag.rest.length) : Matched b b' f p.inTag p'.inTag ∧ p'.tagName = p.tagName := by
  have hnext := h.next hb (Nat.le_trans hroom p.leads_inTag.length_le)
  obtain ⟨hinside, hname⟩ := hnext.skip hb hroom
  exact ⟨hinside, congrArg (List.map Char.toLower) hname⟩

theorem Tag.leads_finish (name : List Char) (t : Tag) (stop : Option Nat) (p : Point) :
    Leads p (t.finish name stop p).2 := by
  unfold Tag.finish
  split
  · exact .refl p
  · split
    · exact p.leads_find _
    · exact .refl p

theorem Tag.mem_finish {name : List Char} {v : Value} (t : Tag) (h : .classes v ∈ (t.finish name stop p).1) :
    .classes v ∈ t.found := by
  unfold Tag.finish at h
  split at h
  · exact h
  · split at h
    · rcases List.mem_append.mp h with h | h
      · exact h
      · -- the body of a script or style block is no class value
        split at h
        · simp at h
        · simp at h
    · exact h

theorem TagMatched.found (ht : TagMatched f w w' t t') : ∃ behind : List Finding,
    t.found = w.reverse.map .classes ++ behind ∧
      t'.found = w'.reverse.map .classes ++ behind.map (Finding.map f) := by
  obtain ⟨added, hclasses, hclasses'⟩ := ht.classes
  refine ⟨added.reverse.map .classes, ?_, ?_⟩
  · rw [Tag.found, hclasses, List.reverse_append, List.map_append]
  · rw [Tag.found, hclasses', List.reverse_append, List.map_append, ← List.map_reverse, List.map_map,
      List.map_map]
    rfl

theorem TagMatched.finish (hb : Exchange b b') (ht : TagMatched f w w' t t') (h : Matched b b' f q q')
    {name : List Char} (hname : ∀ c ∈ name, Neutral c)
    (hroom : b.length ≤ (t.finish name stop q).2.rest.length) :
    ∃ behind, (t.finish name stop q).1 = w.reverse.map .classes ++ behind ∧
      (t'.finish name (stop.map f) q').1 = w'.reverse.map .classes ++ behind.map (Finding.map f) ∧
      Matched b b' f (t.finish name stop q).2 (t'.finish name (stop.map f) q').2 := by
  obtain ⟨behind, hfound, hfound'⟩ := ht.found
  have hscript : t'.isScript = t.isScript := congrArg (· == _) ht.name
  have hstyle : t'.isStyle = t.isStyle := congrArg (· == _) ht.name
  unfold Tag.finish at hroom ⊢
  cases stop with
  | none => exact ⟨behind, hfound, hfound', h⟩
  | some tagEnd =>
    dsimp only [Option.map_some] at hroom ⊢
    rw [hscript, hstyle]
    split
    · next hkind =>
      rw [if_pos hkind] at hroom
      have hclose := h.find hb (blind_closes hname) hroom
      rw [hfound, hfound', ht.lang, ht.dialect]
      refine ⟨behind ++ _, List.append_assoc .., ?_, hclose⟩
      rw [List.map_append, ← List.append_assoc]
      split
      · simp [Finding.map, StyleBlock.map, Span.map, h.pos, hclose.pos]
      · cases t.dialect with
        | none => rfl
        | some d => simp [Finding.map, Span.map, h.pos, hclose.pos]
    · exact ⟨behind, hfound, hfound', h⟩

theorem readTag_matched (hb : Exchange b b') (h : Matched b b' f p p') (hp : Leads ⟨source, 0⟩ p)
    (hp' : Leads ⟨source', 0⟩ p') (hroom : b.length ≤ (readTag source hasBraces p).2.rest.length) :
    (readTag source' hasBraces p').1 = (readTag source hasBraces p).1.map (Finding.map f) ∧
      Matched b b' f (readTag source hasBraces p).2 (readTag source' hasBraces p').2 := by
  obtain ⟨t, stop, q, hread, htag⟩ := exists_readTag source hasBraces p
  rw [htag] at hroom ⊢
  have hroom₁ := Nat.le_trans hroom (t.leads_finish _ stop q).length_le
  obtain ⟨hinside, hname⟩ := h.inTag hb.head (Nat.le_trans hroom₁ (readAttributes_standing hread).1.length_le)
  have hp := hp.trans (p.leads_next.trans p.leads_inTag)
  have hp' := hp'.trans (p'.leads_next.trans p'.leads_inTag)
  obtain ⟨t', q', hread', ht, hq⟩ := readAttributes_matched hb.head hinside hp hp' (.start _)
    (Nat.lt_succ_self _) (Nat.lt_succ_self _) hread hroom₁
  rw [← hname] at hread'
  obtain ⟨behind, hfound, hfound', hafter⟩ := ht.finish hb hq p.tagName_neutral hroom
  rw [readTag_eq hread', hname, hfound, hfound']
  exact ⟨rfl, hafter⟩

theorem readTag_leads_next (source : List Char) (hasBraces : Bool) (p : Point) :
    Leads p.next (readTag source hasBraces p).2 := by
  obtain ⟨t, stop, q, hread, htag⟩ := exists_readTag source hasBraces p
  rw [htag]
  exact p.leads_inTag.trans ((readAttributes_standing hread).1.trans (t.leads_finish _ stop q))

def opensTag (cs : List Char) : Bool := cs.head? == some '<' && cs.tail.head?.any Char.isAlpha

theorem blind_opensTag : Blind opensTag := by
  intro text b b' hb
  cases text with
  | nil =>
    cases hb with
    | same => rfl
    | quoted hquote => rcases hquote with rfl | rfl <;> rfl
    | braces => rfl
    | tag => rfl
  | cons c text =>
    simp only [opensTag, List.cons_append, List.tail_cons, List.head?_cons, List.head?_append, hb.head]

def scanStep (source : List Char) (hasBraces : Bool) (p : Point) : List Finding × Point :=
  if p.sees "<!--".toList then ([], (p.ahead 4).past "-->".toList)
  else if opensTag p.rest then readTag source hasBraces p
  else ([], if p.rest.head? == some '\x7b' && hasBraces then p.pastBraces else p.next)

theorem scanFrom_succ (hne : p.rest ≠ []) : scanFrom source hasBraces (fuel + 1) p =
    (scanStep source hasBraces p).1 ++ scanFrom source hasBraces fuel (scanStep source hasBraces p).2 := by
  rw [scanFrom, scanStep]
  split
  · exact absurd ‹_› hne
  · next hrest => simp [Point.sees, hrest]
  · next c cs hno hrest =>
    have hsees : p.sees "<!--".toList = false := by
      rw [Bool.eq_false_iff]
      intro hsees
      obtain ⟨behind, hbehind⟩ := List.isPrefixOf_iff_prefix.mp hsees
      obtain ⟨rfl, hcs⟩ := List.cons.inj (List.cons.inj (hrest.symm.trans hbehind.symm)).2
      exact hno behind rfl hcs
    rw [hsees, if_neg Bool.false_ne_true]
    cases halpha : c.isAlpha with
    | true => simp [opensTag, hrest, halpha]
    | false => simp [opensTag, hrest, halpha]
  · next c cs hno hno' hrest =>
    have hsees : p.sees "<!--".toList = false := by
      rw [Bool.eq_false_iff]
      intro hsees
      obtain ⟨behind, hbehind⟩ := List.isPrefixOf_iff_prefix.mp hsees
      obtain ⟨hc, hcs⟩ := List.cons.inj (hrest.symm.trans hbehind.symm)
      exact hno behind hc hcs
    have htag : opensTag p.rest = false := by
      rw [hrest, Bool.eq_false_iff]
      intro htag
      obtain ⟨hc, halpha⟩ := (Bool.and_eq_true ..).mp htag
      obtain ⟨d, hd, -⟩ := (Option.any_eq_true _ _).mp halpha
      obtain ⟨ds, hds⟩ := List.head?_eq_some_iff.mp hd
      exact hno' d ds (by simpa using hc) hds
    rw [hsees, htag, if_neg Bool.false_ne_true, if_neg Bool.false_ne_true, hrest]
    simp

theorem scanStep_leads_next (source : List Char) (hasBraces : Bool) (p : Point) :
    Leads p.next (scanStep source hasBraces p).2 := by
  unfold scanStep
  split
  · next hsees =>
    obtain ⟨cs, hrest⟩ := List.isPrefixOf_iff_prefix.mp hsees
    have hahead : Leads p.next (p.ahead 4) := ⟨"!--".toList, by simp [Point.next, Point.ahead, ← hrest],
      by simp [Point.next, Point.ahead, ← hrest, byteLength, Nat.add_assoc]⟩
    exact hahead.trans (Point.leads_past _ _)
  · split
    · exact readTag_leads_next ..
    · split
      · next hbraces =>
        simp only [Bool.and_eq_true, beq_iff_eq] at hbraces
        exact Point.leads_next_pastBraces hbraces.1
      · exact .refl _

theorem Point.ahead_end (h : p.rest = []) (n : Nat) : p.ahead n = p := by
  obtain ⟨rest, pos⟩ := p
  obtain rfl : rest = [] := h
  simp [Point.ahead, byteLength]

theorem Matched.past (hb : Exchange b b') (h : Matched b b' f p p') {mark : List Char}
    (hmark : ∀ c ∈ mark, Neutral c) (hroom : b.length ≤ (p.past mark).rest.length) :
    Matched b b' f (p.past mark) (p'.past mark) := by
  have hahead : Leads (p.find mark.isPrefixOf) (p.past mark) := Point.leads_ahead mark.length _
  have hfound := h.find hb (blind_isPrefixOf hmark) (Nat.le_trans hroom hahead.length_le)
  have hstop : (p.find mark.isPrefixOf).rest = [] ∨ mark.isPrefixOf (p.find mark.isPrefixOf).rest = true := by
    obtain ⟨cs, hcrosses⟩ := p.leads_find mark.isPrefixOf
    have hself : (Point.findFrom mark.isPrefixOf (cs ++ (p.find mark.isPrefixOf).rest) p.pos).rest =
        (p.find mark.isPrefixOf).rest := by
      rw [← hcrosses.rest]
      rfl
    exact (findFrom_rest_iff.mp hself).2
  rcases hstop with hend | hsees
  · -- there is nothing to go on to
    have hend' := hfound.nil hb.head hend
    rw [Point.past, Point.past, Point.ahead_end hend, Point.ahead_end hend']
    exact hfound
  · obtain ⟨behind, hbehind⟩ := List.isPrefixOf_iff_prefix.mp hsees
    exact hfound.ahead _ (by rw [← hbehind, List.length_append]; omega) hroom

theorem scanStep_matched (hasBraces : Bool) (hb : Exchange b b') (h : Matched b b' f p p')
    (hp : Leads ⟨source, 0⟩ p) (hp' : Leads ⟨source', 0⟩ p')
    (hroom : b.length ≤ (scanStep source hasBraces p).2.rest.length) :
    (scanStep source' hasBraces p').1 = (scanStep source hasBraces p).1.map (Finding.map f) ∧
      Matched b b' f (scanStep source hasBraces p).2 (scanStep source' hasBraces p').2 := by
  have hsees : p'.sees "<!--".toList = p.sees "<!--".toList := h.test_eq hb (blind_tagMark rfl (by decide))
  unfold scanStep at hroom ⊢
  rw [hsees, h.test_eq hb blind_opensTag, h.head hb.head]
  split
  · next hcomment =>
    rw [if_pos hcomment] at hroom
    obtain ⟨behind, hbehind⟩ := List.isPrefixOf_iff_prefix.mp hcomment
    have hlength : 4 ≤ p.rest.length := by
      rw [← hbehind, List.length_append]
      exact Nat.le_add_right 4 _
    have hahead := h.ahead 4 hlength (Nat.le_trans hroom (Point.leads_past _ _).length_le)
    exact ⟨rfl, hahead.past hb (by decide) hroom⟩
  · next hcomment =>
    rw [if_neg hcomment] at hroom
    split
    · next htag =>
      rw [if_pos htag] at hroom
      exact readTag_matched hb h hp hp' hroom
    · next htag =>
      rw [if_neg htag] at hroom
      refine ⟨rfl, ?_⟩
      dsimp only at hroom ⊢
      split
      · next hbraces =>
        rw [if_pos hbraces] at hroom
        simp only [Bool.and_eq_true, beq_iff_eq] at hbraces
        exact h.pastBraces hb.head hbraces.1 hroom
      · next hbraces =>
        rw [if_neg hbraces] at hroom
        exact h.next hb.head hroom

theorem scanFrom_end (h : p.rest = []) : scanFrom source hasBraces fuel p = [] := by
  cases fuel with
  | zero => rfl
  | succ fuel => rw [scanFrom, h]

/-- Behind points that match to the end a scan finds the same. -/
theorem scanFrom_matched (h : Matched [] [] f p p') (hp : Leads ⟨source, 0⟩ p) (hp' : Leads ⟨source', 0⟩ p')
    (hfuel : p.rest.length ≤ fuel) (hfuel' : p'.rest.length ≤ fuel') :
    scanFrom source' hasBraces fuel' p' = (scanFrom source hasBraces fuel p).map (Finding.map f) := by
  induction fuel generalizing p p' fuel' with
  | zero =>
    have hrest : p.rest = [] := List.length_eq_zero_iff.mp (Nat.le_zero.mp hfuel)
    rw [scanFrom_end hrest, scanFrom_end (h.nil rfl hrest)]
    rfl
  | succ fuel ih =>
    cases hrest : p.rest with
    | nil =>
      rw [scanFrom_end hrest, scanFrom_end (h.nil rfl hrest)]
      rfl
    | cons c cs =>
      obtain ⟨cs', hrest'⟩ := h.cons rfl hrest
      rw [hrest, List.length_cons] at hfuel
      rw [hrest', List.length_cons] at hfuel'
      obtain ⟨fuel', rfl⟩ : ∃ n, fuel' = n + 1 := ⟨fuel' - 1, by omega⟩
      have hlead := scanStep_leads_next source hasBraces p
      have hlead' := scanStep_leads_next source' hasBraces p'
      have hless := hlead.length_lt hrest
      have hless' := hlead'.length_lt hrest'
      obtain ⟨hfound, hnext⟩ := scanStep_matched hasBraces (.same _) h hp hp' (Nat.zero_le _)
      have hne : p.rest ≠ [] := by simp only [hrest, ne_eq, reduceCtorEq, not_false_eq_true]
      have hne' : p'.rest ≠ [] := by simp only [hrest', ne_eq, reduceCtorEq, not_false_eq_true]
      rw [scanFrom_succ hne, scanFrom_succ hne', hfound, List.map_append]
      rw [ih hnext (hp.trans (p.leads_next.trans hlead)) (hp'.trans (p'.leads_next.trans hlead')) (by omega)
        (by omega)]

end Markup

end ClassSort
