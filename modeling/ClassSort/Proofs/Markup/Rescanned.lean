import ClassSort.Proofs.Markup.Lengthened

/-!
A document where something is changed inside the start tag of a style block. In front of the tag and
behind it a scan finds what it found. What it finds at the tag is told by the attributes that now stand
there, and the body is the same text.
-/

namespace ClassSort.Markup

variable {source source' : String} {block : StyleBlock} {front back : List Finding} {p q q' : Point}
  {as as' : List Attribute} {f : Nat → Nat} {opening inside : List Char}

def styleName : List Char := "style".toList

def Point.styleEnd (q : Point) : Point := q.skipBlanks.next.find (closes styleName)

/-- Where a scan finds a style block: at a tag, in front of which it finds `front`, and `back` behind its
body. -/
structure StyleTag (source : String) (block : StyleBlock) (front back : List Finding) (p : Point)
    (as : List Attribute) (q : Point) : Prop where
  reached : Run (scanNext? source.toList true) (.ofText source) front p
  opens : ∃ c cs, p.rest = '<' :: c :: cs ∧ c.isAlpha = true
  named : p.tagName = styleName
  read : Run (nextAttribute? true) p.inTag as q
  ended : q.skipBlanks.rest.head? = some '>'
  found : block = ⟨q.skipBlanks.pos, lastLang? as, ⟨q.skipBlanks.next.pos, q.styleEnd.pos⟩⟩
  finished : ∃ r, Run (scanNext? source.toList true) q.styleEnd back r ∧ r.rest = []

theorem exists_of_opensTag {cs : List Char} (h : opensTag cs = true) :
    ∃ c ds, cs = '<' :: c :: ds ∧ c.isAlpha = true := by
  obtain ⟨hhead, hletter⟩ := (Bool.and_eq_true ..).mp h
  obtain ⟨es, rfl⟩ := List.head?_eq_some_iff.mp (eq_of_beq hhead)
  obtain ⟨c, hc, halpha⟩ := (Option.any_eq_true _ _).mp hletter
  obtain ⟨ds, hds⟩ := List.head?_eq_some_iff.mp hc
  rw [List.tail_cons] at hds
  exact ⟨c, ds, congrArg _ hds, halpha⟩

/-- A step that finds something is a step over a tag. -/
theorem scanNext?_tag {hasBraces : Bool} {here : List Finding} (h : scanNext? source.toList hasBraces p = some (here, q))
    (hne : here ≠ []) : opensTag p.rest = true ∧ readTag source.toList hasBraces p = (here, q) := by
  unfold scanNext? at h
  split at h
  · cases h
  · have h := Option.some.inj h
    unfold scanStep at h
    split at h
    · cases h
      exact absurd rfl hne
    · split at h
      · next hopens => exact ⟨hopens, h⟩
      · cases h
        exact absurd rfl hne

theorem exists_styleTag (h : .style block ∈ scan source true) :
    ∃ front back p as q, StyleTag source block front back p as q := by
  obtain ⟨r, hrun, hend⟩ := scan_run source true
  obtain ⟨p, p', front, here, back, hfront, hstep, hhere, hback, -⟩ := hrun.split h
  obtain ⟨hopens, htag⟩ := scanNext?_tag hstep (List.ne_nil_of_mem hhere)
  obtain ⟨as, q, hread, hstop, htold⟩ := exists_tagFound source.toList true p
  rw [htold] at htag
  have hmem : .style block ∈ (tagFound source.toList p.tagName as q).1 := by rwa [htag]
  obtain ⟨hne, hbody⟩ := body_of_tagFound (fun v => by simp) hmem
  obtain ⟨hname, hblock⟩ := style_of_bodyFound hbody
  have hafter : p' = q.styleEnd := by
    rw [tagFound, if_neg hne, hname] at htag
    exact (congrArg Prod.snd htag).symm
  rw [hname] at hblock
  rw [hafter] at hback
  exact ⟨front, back, p, as, q, hfront, exists_of_opensTag hopens, hname, hread,
    nextAttribute?_eq_none hstop hne, hblock, r, hback, hend⟩

/-- Over the tag and the body of a style block. -/
theorem styleTag_step (source : String) (hopens : ∃ c cs, p.rest = '<' :: c :: cs ∧ c.isAlpha = true)
    (hname : p.tagName = styleName) (hread : Run (nextAttribute? true) p.inTag as q)
    (hend : q.skipBlanks.rest.head? = some '>') : scanNext? source.toList true p =
      some ((classValues as).map .classes ++
        [.style ⟨q.skipBlanks.pos, lastLang? as, ⟨q.skipBlanks.next.pos, q.styleEnd.pos⟩⟩], q.styleEnd) := by
  have hne : q.skipBlanks.rest ≠ [] := by
    intro hnil
    rw [hnil] at hend
    cases hend
  have hstop : nextAttribute? true q = none := by rw [nextAttribute?, if_pos (.inr hend)]
  obtain ⟨c, cs, hrest, halpha⟩ := hopens
  rw [scanNext?_of_cons hrest, scanStep_tag hrest halpha, hread.readTag_found hstop, hname, tagFound, if_neg hne]
  rfl

/-- The name of a tag ends where no letter of a name follows. -/
theorem Point.inTag_head (p : Point) : ∀ c ∈ p.inTag.rest.head?, isTagLetter c = false := by
  intro c hc
  obtain ⟨cs, hrest⟩ := List.head?_eq_some_iff.mp hc
  have hne : p.next.rest.dropWhile isTagLetter ≠ [] := by
    change p.inTag.rest ≠ []
    rw [hrest]
    exact List.cons_ne_nil c cs
  have hfirst := List.head_dropWhile_not isTagLetter hne
  have hhead : (p.next.rest.dropWhile isTagLetter).head hne = c :=
    Option.some.inj ((List.head?_eq_some_head hne).symm.trans hc)
  rwa [hhead] at hfirst

/-- The opening of a tag, up to the end of its name. -/
theorem Point.exists_opening (hopens : ∃ c cs, p.rest = '<' :: c :: cs ∧ c.isAlpha = true) : ∃ c letters,
    c.isAlpha = true ∧ (∀ d ∈ c :: letters, isTagLetter d = true) ∧
      (c :: letters).map Char.toLower = p.tagName ∧ Crosses p p.inTag ('<' :: c :: letters) := by
  obtain ⟨c, cs, hrest, halpha⟩ := hopens
  have hnext : p.next = ⟨c :: cs, p.pos + 1⟩ := by
    rw [Point.next, hrest]
    rfl
  have hletter : isTagLetter c = true := by simp [isTagLetter, Char.isAlphanum, halpha]
  have hname : (c :: cs).takeWhile isTagLetter = c :: cs.takeWhile isTagLetter :=
    List.takeWhile_cons_of_pos hletter
  have hskipped : Crosses p.next p.inTag ((c :: cs).takeWhile isTagLetter) := by
    constructor
    · rw [Point.inTag, hnext]
      exact List.takeWhile_append_dropWhile.symm
    · rw [Point.inTag, hnext]
      rfl
  refine ⟨c, cs.takeWhile isTagLetter, halpha, ?_, ?_, ?_⟩
  · exact List.forall_mem_cons.mpr ⟨hletter, fun d hd => List.mem_takeWhile_imp hd⟩
  · rw [Point.tagName, hnext, hname]
  · rw [← hname]
    exact (Point.crosses_next (by rw [hrest]; rfl)).trans hskipped

/-- Up to a tag a document that is changed inside or behind it is scanned as before. -/
theorem Run.tag_reached {hasBraces : Bool} (hrun : Run (scanNext? source.toList hasBraces) (.ofText source) front p)
    (hopens : ∃ c cs, p.rest = '<' :: c :: cs ∧ c.isAlpha = true) (hopening : Crosses (.ofText source) p.inTag opening)
    (hsource : source'.toList = opening ++ inside) (hinside : ∀ c ∈ inside.head?, isTagLetter c = false)
    (hfixed : ∀ n ≤ p.inTag.pos, f n = n) :
    ∃ p', Run (scanNext? source'.toList hasBraces) (.ofText source') (front.map (Finding.map f)) p' ∧
      (∃ c cs, p'.rest = '<' :: c :: cs ∧ c.isAlpha = true) ∧ p'.tagName = p.tagName ∧
      p'.inTag = ⟨inside, p.inTag.pos⟩ := by
  obtain ⟨c, letters, halpha, hletters, hname, htag⟩ := Point.exists_opening hopens
  obtain ⟨before, hbefore⟩ := hrun.leads_scan
  obtain rfl : opening = before ++ '<' :: c :: letters := by
    have hsplit := (hbefore.trans htag).rest.symm.trans hopening.rest
    exact (List.append_cancel_right hsplit).symm
  have hle := (p.leads_next.trans p.leads_inTag).pos_le
  have hexchange : Exchange p.rest ('<' :: (c :: letters ++ inside)) := by
    rw [htag.rest]
    exact .tag halpha _ _
  have hstart : Matched p.rest ('<' :: (c :: letters ++ inside)) f (.ofText source) (.ofText source') := by
    refine ⟨before, hbefore.rest, ?_, fun n hn => ?_⟩
    · change source'.toList = _
      rw [hsource, List.append_assoc]
      rfl
    · have hpos := hbefore.pos
      exact hfixed _ (by omega)
  obtain ⟨p', hfront, hp'⟩ := hrun.scan_matched hexchange hstart (.refl _) (.refl _) (Nat.le_refl _)
  obtain ⟨hinTag, htagName⟩ := Point.inTag_append hletters hinside p.pos
  have hpos : p.inTag.pos = p.pos + 1 + byteLength (c :: letters) := by
    rw [htag.pos, byteLength, ← Nat.add_assoc]
    rfl
  have hreached := hp'.reached rfl
  rw [hfixed _ hle] at hreached
  subst hreached
  exact ⟨_, hfront, ⟨c, _, rfl, halpha⟩, htagName.trans hname, by rw [hpos]; exact hinTag⟩

namespace StyleTag

theorem leads_inTag (h : StyleTag source block front back p as q) : Leads (.ofText source) p.inTag :=
  h.reached.leads_scan.trans (p.leads_next.trans p.leads_inTag)

/-- What a scan finds. -/
theorem scan_eq (h : StyleTag source block front back p as q) :
    scan source true = front ++ ((classValues as).map .classes ++ .style block :: back) := by
  obtain ⟨r, hback, hend⟩ := h.finished
  have hstep := styleTag_step source h.opens h.named h.read h.ended
  rw [← h.found] at hstep
  have hrun := h.reached.trans (.step hstep hback)
  rw [hrun.scan_eq hend, List.append_assoc]
  rfl

/-- What a scan finds after a change inside the tag. `f` tells where positions in front of the change and
behind it have gone. -/
theorem rescan (h : StyleTag source block front back p as q) (hopening : Crosses (.ofText source) p.inTag opening)
    (hsource : source'.toList = opening ++ inside) (hinside : ∀ c ∈ inside.head?, isTagLetter c = false)
    (hfixed : ∀ n ≤ p.inTag.pos, f n = n) (hread : Run (nextAttribute? true) ⟨inside, p.inTag.pos⟩ as' q')
    (hbehind : Matched [] [] f q.skipBlanks.next q'.skipBlanks.next)
    (hend : q'.skipBlanks.rest.head? = some '>') :
    ∃ block', scan source' true =
        front.map (Finding.map f) ++ ((classValues as').map .classes ++ .style block' :: back.map (Finding.map f)) ∧
      block' = ⟨q'.skipBlanks.pos, lastLang? as', block.body.map f⟩ ∧
      sliceChars? source'.toList block'.body = sliceChars? source.toList block.body := by
  obtain ⟨p', hfront, hopens, hname, hinTag⟩ := h.reached.tag_reached h.opens hopening hsource hinside hfixed
  rw [h.named] at hname
  rw [← hinTag] at hread
  have hstep := styleTag_step source' hopens hname hread hend
  have hclose : Matched [] [] f q.styleEnd q'.styleEnd :=
    hbehind.find (.same []) (blind_closes (by decide)) (Nat.zero_le _)
  have hq : Leads (.ofText source) q.skipBlanks.next :=
    h.leads_inTag.trans (h.read.leads_attributes.trans ((Point.leads_skip _ _).trans (Point.leads_next _)))
  have hq' : Leads (.ofText source') q'.skipBlanks.next :=
    (hfront.leads_scan.trans ((Point.leads_next _).trans (Point.leads_inTag _))).trans
      (hread.leads_attributes.trans ((Point.leads_skip _ _).trans (Point.leads_next _)))
  -- behind the body nothing has changed
  obtain ⟨r, hback, hnil⟩ := h.finished
  obtain ⟨r', hback', hr⟩ := hback.scan_matched (.same []) hclose (hq.trans (Point.leads_find _ _))
    (hq'.trans (Point.leads_find _ _)) (Nat.zero_le _)
  have hrun := hfront.trans (.step hstep hback')
  have hbody : block.body.map f = ⟨q'.skipBlanks.next.pos, q'.styleEnd.pos⟩ := by
    rw [h.found, Span.map, hbehind.pos, hclose.pos]
  refine ⟨_, ?_, rfl, ?_⟩
  · rw [hrun.scan_eq (hr.nil rfl hnil), hbody, List.append_assoc]
    rfl
  · rw [h.found]
    exact hbehind.slice hq hq' (Point.leads_find _ _) (Nat.zero_le _) (Nat.le_refl _)
      (Point.leads_find _ _).pos_le (Nat.le_refl _)

end StyleTag

end ClassSort.Markup
