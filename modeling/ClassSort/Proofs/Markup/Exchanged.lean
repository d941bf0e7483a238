import ClassSort.Proofs.Markup.Tags

/-!
A quoted value that is exchanged for another one. In front of the value and behind it a scan finds what
it found, and in its place it finds the other one.
-/

namespace ClassSort.Markup

theorem Leads.unique {p q q' : Point} (h : Leads p q) (h' : Leads p q') (hpos : q.pos = q'.pos) : q = q' := by
  obtain ⟨text, hq⟩ := h
  obtain ⟨text', hq'⟩ := h'
  have hwidth : byteLength text = byteLength text' := by
    have hpos₁ := hq.pos
    have hpos₂ := hq'.pos
    omega
  have hcut := splitAtByte_append text q.rest
  rw [← hq.rest, hq'.rest, hwidth, splitAtByte_append, Option.some.injEq, Prod.mk.injEq] at hcut
  obtain ⟨rest, pos⟩ := q
  obtain ⟨rest', pos'⟩ := q'
  exact congrArg₂ Point.mk hcut.2.symm hpos

/-- Where a value begins and ends. -/
theorem readValue_span {hasBraces : Bool} {p : Point} {v : Value} (h : (readValue hasBraces p).1 = some v) :
    v.span = ⟨p.pos, (readValue hasBraces p).2.pos⟩ := by
  unfold readValue at h ⊢
  split at h
  · cases h
  · next c cs hrest =>
    split at h
    · next hquote =>
      cases h
      rw [if_pos hquote]
      rfl
    · next hquote =>
      rw [if_neg hquote]
      split at h
      · next hbraces =>
        cases h
        rw [if_pos hbraces]
      · next hbraces =>
        cases h
        rw [if_neg hbraces]

/-- Only an attribute with the name `class` adds a value to its tag, and only outside of scripts. -/
theorem class_of_found {source : List Char} {t : Tag} {name : Span} {text : List Char} {v : Value}
    (hv : .classes v ∈ (t.add source ⟨name, text, some v⟩).found) (hnot : .classes v ∉ t.found) :
    t.isScript = false ∧ text = "class".toList := by
  unfold Tag.add at hv
  extract_lets _ t₁ at hv
  have hsame : t₁.found = t.found ∧ t₁.isScript = t.isScript := by
    unfold t₁
    split
    · exact ⟨rfl, rfl⟩
    · exact ⟨rfl, rfl⟩
  rw [← hsame.1] at hnot
  rw [← hsame.2]
  dsimp only at hv
  split at hv
  · exact absurd hv hnot
  · next hscript =>
    split at hv
    · next hclass => exact ⟨Bool.eq_false_iff.mpr hscript, eq_of_beq hclass⟩
    · exact absurd hv hnot

theorem add_class (source : List Char) {t : Tag} (name : Span) (v : Value) (hscript : t.isScript = false) :
    t.add source ⟨name, "class".toList, some v⟩ = { t with classes := v :: t.classes } := by
  unfold Tag.add
  simp [hscript]

/-- Two documents that are the same but for one value, which begins at `p` and at `p'`. Positions in front of
it are the same, too. -/
structure Exchanged (source source' : List Char) (hasBraces : Bool) (f : Nat → Nat) (p p' : Point)
    (v v' : Value) : Prop where
  exchange : Exchange p.rest p'.rest
  front : Matched p.rest p'.rest f ⟨source, 0⟩ ⟨source', 0⟩
  leads : Leads ⟨source, 0⟩ p
  leads' : Leads ⟨source', 0⟩ p'
  read : (readValue hasBraces p).1 = some v
  read' : (readValue hasBraces p').1 = some v'
  fixed : ∀ n ≤ p.pos, f n = n
  behind : Matched [] [] f (readValue hasBraces p).2 (readValue hasBraces p').2

namespace Exchanged

variable {source source' : List Char} {hasBraces : Bool} {f : Nat → Nat} {p p' q q' : Point} {v v' : Value}

/-- A point where the value is read is the point where it begins. -/
theorem at_point (s : Exchanged source source' hasBraces f p p' v v') (hq : Leads ⟨source, 0⟩ q)
    (hread : (readValue hasBraces q).1 = some v) : q = p := by
  apply hq.unique s.leads
  have hspan := (readValue_span hread).symm.trans (readValue_span s.read)
  exact congrArg Span.start hspan

/-- A point in front of the value leaves all of it. -/
theorem room (s : Exchanged source source' hasBraces f p p' v v') (hq : Leads ⟨source, 0⟩ q)
    (hread : v.ReadFrom hasBraces q) : p.rest.length ≤ q.rest.length := by
  obtain ⟨r, hr, hread⟩ := hread
  rw [← s.at_point (hq.trans hr) hread]
  exact hr.length_le

theorem matched_self (s : Exchanged source source' hasBraces f p p' v v')
    (h : Matched p.rest p'.rest f p q') (hq' : Leads ⟨source', 0⟩ q') : q' = p' := by
  obtain ⟨text, hp, hrest, -⟩ := h
  have hnil : text = [] := List.append_cancel_right (hp.symm.trans (List.nil_append _).symm)
  subst hnil
  obtain ⟨front, hfront⟩ := hq'
  obtain ⟨front', hfront'⟩ := s.leads'
  have hsame : front = front' := by
    have hsource := hfront.rest.symm.trans hfront'.rest
    rw [hrest, List.nil_append] at hsource
    exact List.append_cancel_right hsource
  subst hsame
  obtain ⟨rest, pos⟩ := q'
  exact congrArg₂ Point.mk hrest (hfront.pos.trans hfront'.pos.symm)

/-- In front of the value no position moves. -/
theorem still (s : Exchanged source source' hasBraces f p p' v v') (h : Matched p.rest p'.rest f q q')
    (hq : Leads ⟨source, 0⟩ q) : Matched p.rest p'.rest id q q' := by
  obtain ⟨text, hrest, hrest', hshift⟩ := h
  have hpos : p.pos = q.pos + byteLength text := by
    have hcrosses : Crosses q ⟨p.rest, q.pos + byteLength text⟩ text := ⟨hrest, rfl⟩
    obtain ⟨front, hfront⟩ := hq.trans ⟨text, hcrosses⟩
    obtain ⟨front', hfront'⟩ := s.leads
    have hsame : front = front' := List.append_cancel_right (hfront.rest.symm.trans hfront'.rest)
    exact hfront'.pos.trans (hsame ▸ hfront.pos).symm
  refine ⟨text, hrest, hrest', fun n hn => ?_⟩
  rw [← hshift n hn, s.fixed _ (by omega), id]

theorem attributeRead (s : Exchanged source source' hasBraces f p p' v v') (h : Matched p.rest p'.rest f q q')
    (hq : Leads ⟨source, 0⟩ q) (hq' : Leads ⟨source', 0⟩ q') (hv : v ∈ (readAttribute hasBraces q).1.value) :
    ∃ name text, (readAttribute hasBraces q).1 = ⟨name, text, some v⟩ ∧
      (readAttribute hasBraces q').1 = ⟨name.map f, text, some v'⟩ ∧
      Matched [] [] f (readAttribute hasBraces q).2 (readAttribute hasBraces q').2 := by
  have hvalue := hasValue_of_mem hv
  have hbehind : Leads (q.skip (!endsName ·)) q.behindEquals :=
    ((Point.leads_skip _ _).trans (Point.leads_next _)).trans (Point.leads_skip _ _)
  rw [hvalue.readAttribute_eq] at hv ⊢
  have hstart : q.behindEquals = p := s.at_point ((hq.trans (q.leads_skip _)).trans hbehind) hv
  obtain ⟨hvalue', hmatched⟩ := h.behindEquals s.exchange.head hvalue (by rw [hstart])
  obtain ⟨htext, hspan⟩ := h.behindName s.exchange.head (by rw [← hstart]; exact hbehind.length_le)
  rw [hstart] at hmatched ⊢
  have hbehind' : Leads (q'.skip (!endsName ·)) q'.behindEquals :=
    ((Point.leads_skip _ _).trans (Point.leads_next _)).trans (Point.leads_skip _ _)
  have hstart' := s.matched_self hmatched ((hq'.trans (q'.leads_skip _)).trans hbehind')
  rw [hvalue'.readAttribute_eq, hstart', htext, hspan, s.read, s.read']
  exact ⟨_, _, rfl, rfl, s.behind⟩

variable {fuel fuel' : Nat} {t t' u : Tag} {stop : Option Nat} {r : Point}

theorem step (s : Exchanged source source' hasBraces f p p' v v') (h : Matched p.rest p'.rest f q q')
    (hq : Leads ⟨source, 0⟩ q) (hq' : Leads ⟨source', 0⟩ q') (ht : TagMatched f [] [] t t')
    (hstill : TagMatched id [] [] t t') (hnot : .classes v ∉ t.found)
    (hv : .classes v ∈ (tagStep source hasBraces t q).1.found) :
    ∃ before, TagMatched f (v :: before) (v' :: before) (tagStep source hasBraces t q).1
        (tagStep source' hasBraces t' q').1 ∧
      Matched [] [] f (tagStep source hasBraces t q).2 (tagStep source' hasBraces t' q').2 := by
  unfold tagStep at hv ⊢
  rw [h.head s.exchange.head]
  split
  · next hslash =>
    rw [if_pos hslash] at hv
    exact absurd hv hnot
  · next hslash =>
    rw [if_neg hslash] at hv
    split
    · next hbraces =>
      rw [if_pos hbraces] at hv
      exact absurd hv hnot
    · next hbraces =>
      rw [if_neg hbraces] at hv
      obtain hsame | ⟨w, hw, hnew⟩ := add_found source t (readAttribute hasBraces q).1
      · rw [hsame] at hv
        exact absurd hv hnot
      · have hvalue : v = w := by
          rw [hnew, List.mem_append, List.mem_singleton] at hv
          cases hv.resolve_left hnot
          rfl
        subst hvalue
        obtain ⟨name, text, hattribute, hattribute', hafter⟩ := s.attributeRead h hq hq' hw
        rw [hattribute] at hv ⊢
        rw [hattribute']
        obtain ⟨hscript, rfl⟩ := class_of_found hv hnot
        have hscript' : t'.isScript = false := (congrArg (· == _) ht.name).trans hscript
        obtain ⟨added, hclasses, hclasses'⟩ := hstill.classes
        rw [List.append_nil] at hclasses hclasses'
        rw [add_class source name v hscript, add_class source' (name.map f) v' hscript']
        refine ⟨t.classes, ⟨ht.name, ht.dialect, ht.lang, [], rfl, ?_⟩, hafter⟩
        rw [hclasses, hclasses', List.map_id'' Value.map_id]
        rfl

theorem attributes (s : Exchanged source source' hasBraces f p p' v v') (h : Matched p.rest p'.rest f q q')
    (hq : Leads ⟨source, 0⟩ q) (hq' : Leads ⟨source', 0⟩ q') (ht : TagMatched f [] [] t t')
    (hstill : TagMatched id [] [] t t') (hfuel : q.rest.length < fuel) (hfuel' : q'.rest.length < fuel')
    (hread : readAttributes source hasBraces fuel t q = (u, stop, r)) (hnot : .classes v ∉ t.found)
    (hv : .classes v ∈ u.found) :
    ∃ u' r' before, readAttributes source' hasBraces fuel' t' q' = (u', stop.map f, r') ∧
      TagMatched f (v :: before) (v' :: before) u u' ∧ Matched [] [] f r r' := by
  induction fuel generalizing q q' t t' fuel' with
  | zero => omega
  | succ fuel ih =>
    obtain ⟨fuel', rfl⟩ : ∃ n, fuel' = n + 1 := ⟨fuel' - 1, by omega⟩
    have hblanks : Leads q q.skipBlanks := q.leads_skip isAsciiBlank
    have hblanks' : Leads q' q'.skipBlanks := q'.leads_skip isAsciiBlank
    have hread₀ := (readAttributes_skipBlanks ..).trans hread
    have hahead := ((readAttributes_standing hread₀).2 v hv).resolve_left hnot
    have hq := hq.trans hblanks
    have hq' := hq'.trans hblanks'
    obtain ⟨h, -⟩ := h.skip s.exchange.head (s.room hq hahead)
    change Matched p.rest p'.rest f q.skipBlanks q'.skipBlanks at h
    have hless := hblanks.length_le
    have hless' := hblanks'.length_le
    rw [readAttributes_succ] at hread ⊢
    rw [h.head s.exchange.head]
    split
    · next hnone =>
      rw [if_pos hnone] at hread
      cases hread
      exact absurd hv hnot
    · next hsome =>
      rw [if_neg hsome] at hread
      split
      · next hend =>
        rw [if_pos hend] at hread
        cases hread
        exact absurd hv hnot
      · next hend =>
        rw [if_neg hend] at hread
        obtain ⟨c, hc⟩ := Option.ne_none_iff_exists'.mp hsome
        obtain ⟨cs, hrest⟩ := List.head?_eq_some_iff.mp hc
        obtain ⟨cs', hrest'⟩ := h.cons s.exchange.head hrest
        have hlead₁ := tagStep_leads_next source hasBraces t hrest
        have hlead₁' := tagStep_leads_next source' hasBraces t' hrest'
        have hless₁ := hlead₁.length_lt hrest
        have hless₁' := hlead₁'.length_lt hrest'
        have hsize := congrArg List.length hrest
        have hsize' := congrArg List.length hrest'
        rw [List.length_cons] at hsize hsize'
        have hnext := hq.trans ((Point.leads_next _).trans hlead₁)
        have hnext' := hq'.trans ((Point.leads_next _).trans hlead₁')
        by_cases hfound : .classes v ∈ (tagStep source hasBraces t q.skipBlanks).1.found
        · obtain ⟨before, ht, hmatched⟩ := s.step h hq hq' ht hstill hnot hfound
          have hfuel₁ : (tagStep source' hasBraces t' q'.skipBlanks).2.rest.length < fuel' := by omega
          obtain ⟨u', r', hread', hu, hr⟩ := readAttributes_matched rfl hmatched hnext hnext' ht
            (by omega) hfuel₁ hread (Nat.zero_le _)
          exact ⟨u', r', before, hread', hu, hr⟩
        · have hlater := ((readAttributes_standing hread).2 v hv).resolve_left hfound
          obtain ⟨ht, hmatched⟩ := tagStep_matched s.exchange.head h hq hq' ht (s.room hnext hlater)
          obtain ⟨hstill, -⟩ := tagStep_matched s.exchange.head (s.still h hq) hq hq' hstill (s.room hnext hlater)
          exact ih hmatched hnext hnext' ht hstill (by omega) (by omega) hread hfound

theorem tag (s : Exchanged source source' hasBraces f p p' v v') (h : Matched p.rest p'.rest f q q')
    (hq : Leads ⟨source, 0⟩ q) (hq' : Leads ⟨source', 0⟩ q')
    (hv : .classes v ∈ (readTag source hasBraces q).1) :
    ∃ before after, (readTag source hasBraces q).1 = before ++ .classes v :: after ∧
      (readTag source' hasBraces q').1 = before ++ .classes v' :: after.map (Finding.map f) ∧
      Matched [] [] f (readTag source hasBraces q).2 (readTag source' hasBraces q').2 := by
  obtain ⟨t, stop, r, hread, htag⟩ := exists_readTag source hasBraces q
  rw [htag] at hv ⊢
  have hfound : .classes v ∈ t.found := t.mem_finish hv
  have hnot : Finding.classes v ∉ (Tag.named q.tagName).found := List.not_mem_nil
  have hq := hq.trans (q.leads_next.trans q.leads_inTag)
  have hq' := hq'.trans (q'.leads_next.trans q'.leads_inTag)
  have hroom := s.room hq (((readAttributes_standing hread).2 v hfound).resolve_left hnot)
  obtain ⟨hinside, hname⟩ := h.inTag s.exchange.head hroom
  obtain ⟨t', r', before, hread', ht, hr⟩ := s.attributes hinside hq hq' (.start _) (.start _)
    (Nat.lt_succ_self _) (Nat.lt_succ_self _) hread hnot hfound
  rw [← hname] at hread'
  rw [readTag_eq hread', hname]
  obtain ⟨behind, hfound, hfound', hafter⟩ := ht.finish (.same []) hr q.tagName_neutral (Nat.zero_le _)
  refine ⟨before.reverse.map .classes, behind, ?_, ?_, hafter⟩
  · rw [hfound]
    simp
  · rw [hfound']
    simp

theorem scanned (s : Exchanged source source' hasBraces f p p' v v') (h : Matched p.rest p'.rest f q q')
    (hq : Leads ⟨source, 0⟩ q) (hq' : Leads ⟨source', 0⟩ q')
    (hv : .classes v ∈ (scanStep source hasBraces q).1) :
    ∃ before after, (scanStep source hasBraces q).1 = before ++ .classes v :: after ∧
      (scanStep source' hasBraces q').1 = before ++ .classes v' :: after.map (Finding.map f) ∧
      Matched [] [] f (scanStep source hasBraces q).2 (scanStep source' hasBraces q').2 := by
  have hsees : q'.sees "<!--".toList = q.sees "<!--".toList :=
    h.test_eq s.exchange (blind_tagMark rfl (by decide))
  unfold scanStep at hv ⊢
  rw [hsees, h.test_eq s.exchange blind_opensTag]
  split
  · next hcomment =>
    rw [if_pos hcomment] at hv
    cases hv
  · next hcomment =>
    rw [if_neg hcomment] at hv
    split
    · next htag =>
      rw [if_pos htag] at hv
      exact s.tag h hq hq' hv
    · next htag =>
      rw [if_neg htag] at hv
      cases hv

theorem scannedFrom (s : Exchanged source source' hasBraces f p p' v v') (h : Matched p.rest p'.rest f q q')
    (hq : Leads ⟨source, 0⟩ q) (hq' : Leads ⟨source', 0⟩ q') (hfuel : q.rest.length ≤ fuel)
    (hfuel' : q'.rest.length ≤ fuel') (hv : .classes v ∈ scanFrom source hasBraces fuel q) :
    ∃ before after, scanFrom source hasBraces fuel q = before ++ .classes v :: after ∧
      scanFrom source' hasBraces fuel' q' =
        before ++ .classes v' :: after.map (Finding.map f) := by
  induction fuel generalizing q q' fuel' with
  | zero => cases hv
  | succ fuel ih =>
    cases hrest : q.rest with
    | nil =>
      rw [scanFrom_end hrest] at hv
      cases hv
    | cons c cs =>
      obtain ⟨cs', hrest'⟩ := h.cons s.exchange.head hrest
      have hne : q.rest ≠ [] := by simp only [hrest, ne_eq, reduceCtorEq, not_false_eq_true]
      have hne' : q'.rest ≠ [] := by simp only [hrest', ne_eq, reduceCtorEq, not_false_eq_true]
      rw [hrest, List.length_cons] at hfuel
      rw [hrest', List.length_cons] at hfuel'
      obtain ⟨fuel', rfl⟩ : ∃ n, fuel' = n + 1 := ⟨fuel' - 1, by omega⟩
      have hlead := scanStep_leads_next source hasBraces q
      have hlead' := scanStep_leads_next source' hasBraces q'
      have hless := hlead.length_lt hrest
      have hless' := hlead'.length_lt hrest'
      have hnext := hq.trans (q.leads_next.trans hlead)
      have hnext' := hq'.trans (q'.leads_next.trans hlead')
      rw [scanFrom_succ hne] at hv ⊢
      rw [scanFrom_succ hne']
      by_cases hfound : .classes v ∈ (scanStep source hasBraces q).1
      · obtain ⟨before, after, hstep, hstep', hmatched⟩ := s.scanned h hq hq' hfound
        have hbehind : scanFrom source' hasBraces fuel' (scanStep source' hasBraces q').2 =
            (scanFrom source hasBraces fuel (scanStep source hasBraces q).2).map (Finding.map f) :=
          scanFrom_matched hmatched hnext hnext' (by omega) (by omega)
        refine ⟨before, after ++ scanFrom source hasBraces fuel (scanStep source hasBraces q).2, ?_, ?_⟩
        · rw [hstep, List.append_assoc, List.cons_append]
        · rw [hstep', hbehind, List.append_assoc, List.cons_append, List.map_append]
      · have hlater := (List.mem_append.mp hv).resolve_left hfound
        have hroom := s.room hnext (scanFrom_standing hlater)
        obtain ⟨-, hmatched⟩ := scanStep_matched hasBraces s.exchange h hq hq' hroom
        obtain ⟨hstep, -⟩ := scanStep_matched hasBraces s.exchange (s.still h hq) hq hq' hroom
        have hfuel₁ : (scanStep source' hasBraces q').2.rest.length ≤ fuel' := by omega
        obtain ⟨before, after, hscan, hscan'⟩ := ih hmatched hnext hnext' (by omega) hfuel₁ hlater
        refine ⟨(scanStep source hasBraces q).1 ++ before, after, ?_, ?_⟩
        · rw [hscan, List.append_assoc]
        · rw [hstep, hscan', List.map_id'' Finding.map_id, List.append_assoc]

end Exchanged

/-- What a scan finds after an exchange. -/
theorem scan_exchanged {source source' : String} {hasBraces : Bool} {f : Nat → Nat} {p p' : Point}
    {v v' : Value} (s : Exchanged source.toList source'.toList hasBraces f p p' v v')
    (hv : .classes v ∈ scan source hasBraces) :
    ∃ before after, scan source hasBraces = before ++ .classes v :: after ∧
      scan source' hasBraces = before ++ .classes v' :: after.map (Finding.map f) :=
  s.scannedFrom s.front (.refl _) (.refl _) (Nat.le_refl _) (Nat.le_refl _) hv

end ClassSort.Markup
