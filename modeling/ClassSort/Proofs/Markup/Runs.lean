import ClassSort.Proofs.Markup.Tags

/-!
The two loops of a scan, over a document and over the attributes of a tag, as runs of steps. Every step
passes a character, so both come to their ends: the scan to the end of the document, a tag to its end
or to that of the document.
-/

namespace ClassSort.Markup

/-- Steps from one point to another, and what they bring on the way. -/
inductive Run {α : Type} (next? : Point → Option (List α × Point)) : Point → List α → Point → Prop where
  | refl (p : Point) : Run next? p [] p
  | step {p q r : Point} {here behind : List α} (h : next? p = some (here, q)) (rest : Run next? q behind r) :
      Run next? p (here ++ behind) r

namespace Run

variable {α : Type} {next? : Point → Option (List α × Point)} {p q r : Point} {found more : List α}

theorem single (h : next? p = some (found, q)) : Run next? p found q := by
  have hrun := Run.step h (.refl q)
  rwa [List.append_nil] at hrun

theorem trans (h : Run next? p found q) (h' : Run next? q more r) : Run next? p (found ++ more) r := by
  induction h with
  | refl => exact h'
  | step hstep _ ih =>
    rw [List.append_assoc]
    exact .step hstep (ih h')

/-- A run that comes to an end is the only one. -/
theorem unique (h : Run next? p found q) (hq : next? q = none) (h' : Run next? p more r) (hr : next? r = none) :
    found = more ∧ q = r := by
  induction h generalizing more with
  | refl p =>
    cases h' with
    | refl => exact ⟨rfl, rfl⟩
    | step hstep => rw [hq] at hstep; cases hstep
  | step hstep _ ih =>
    cases h' with
    | refl => rw [hr] at hstep; cases hstep
    | step hstep' hrest =>
      cases hstep.symm.trans hstep'
      obtain ⟨rfl, rfl⟩ := ih hq hrest
      exact ⟨rfl, rfl⟩

theorem leads (hnext : ∀ p here q, next? p = some (here, q) → Leads p q) (h : Run next? p found q) :
    Leads p q := by
  induction h with
  | refl p => exact .refl p
  | step hstep _ ih => exact (hnext _ _ _ hstep).trans ih

/-- The step that brings something. -/
theorem split {x : α} (h : Run next? p found r) (hx : x ∈ found) : ∃ q q' front here back,
    Run next? p front q ∧ next? q = some (here, q') ∧ x ∈ here ∧ Run next? q' back r ∧
      found = front ++ (here ++ back) := by
  induction h with
  | refl => cases hx
  | @step p q r here behind hstep hrest ih =>
    rcases List.mem_append.mp hx with hx | hx
    · exact ⟨p, q, [], here, behind, .refl p, hstep, hx, hrest, rfl⟩
    · obtain ⟨s, s', front, there, back, hfront, hs, hthere, hback, rfl⟩ := ih hx
      exact ⟨s, s', here ++ front, there, back, .step hstep hfront, hs, hthere, hback,
        (List.append_assoc ..).symm⟩

/-- Where every step brings one thing at most, what is brought can be told apart at each of them. -/
theorem split_at {x : α} {front back : List α} (hone : ∀ p here q, next? p = some (here, q) → here.length ≤ 1)
    (h : Run next? p (front ++ x :: back) r) : ∃ q q',
      Run next? p front q ∧ next? q = some ([x], q') ∧ Run next? q' back r := by
  generalize hall : front ++ x :: back = found at h
  induction h generalizing front with
  | refl => simp at hall
  | @step p q r here behind hstep hrest ih =>
    cases here with
    | nil =>
      obtain ⟨s, s', hfront, hs, hback⟩ := ih hall
      exact ⟨s, s', .step hstep hfront, hs, hback⟩
    | cons y more =>
      obtain rfl : more = [] := by simpa using hone _ _ _ hstep
      cases front with
      | nil =>
        obtain ⟨rfl, rfl⟩ := List.cons.inj hall
        exact ⟨p, q, .refl p, hstep, hrest⟩
      | cons z front =>
        obtain ⟨rfl, hbehind⟩ := List.cons.inj hall
        obtain ⟨s, s', hfront, hs, hback⟩ := ih hbehind
        exact ⟨s, s', .step hstep hfront, hs, hback⟩

/-- The last step. -/
theorem last (h : Run next? p found r) : (p = r ∧ found = []) ∨ ∃ q front here,
    Run next? p front q ∧ next? q = some (here, r) ∧ found = front ++ here := by
  induction h with
  | refl => exact .inl ⟨rfl, rfl⟩
  | @step p q r here behind hstep _ ih =>
    right
    rcases ih with ⟨rfl, rfl⟩ | ⟨s, front, there, hfront, hs, rfl⟩
    · exact ⟨p, [], here, .refl p, hstep, List.append_nil _⟩
    · exact ⟨s, here ++ front, there, .step hstep hfront, hs, (List.append_assoc ..).symm⟩

/-- Steps that pass a character come to an end. -/
theorem exists_end (hnext : ∀ p here q, next? p = some (here, q) → q.rest.length < p.rest.length) (p : Point) :
    ∃ found q, Run next? p found q ∧ next? q = none := by
  induction hn : p.rest.length using Nat.strong_induction_on generalizing p with
  | _ n ih =>
    cases hstep : next? p with
    | none => exact ⟨[], p, .refl p, hstep⟩
    | some result =>
      obtain ⟨here, q⟩ := result
      obtain ⟨behind, r, hrun, hend⟩ := ih _ (hn ▸ hnext p here q hstep) q rfl
      exact ⟨here ++ behind, r, .step hstep hrun, hend⟩

end Run

variable {source : List Char} {hasBraces : Bool} {fuel : Nat} {p q : Point}

/-! The attributes of a tag. -/

def attributeStep (hasBraces : Bool) (p : Point) : List Attribute × Point :=
  if p.rest.head? = some '/' then ([], p.next)
  else if p.rest.head? = some '\x7b' ∧ hasBraces = true then ([], p.pastBraces)
  else ([(readAttribute hasBraces p).1], (readAttribute hasBraces p).2)

def nextAttribute? (hasBraces : Bool) (p : Point) : Option (List Attribute × Point) :=
  if p.skipBlanks.rest = [] ∨ p.skipBlanks.rest.head? = some '>' then none
  else some (attributeStep hasBraces p.skipBlanks)

def Point.endOfTag (p : Point) : Option Nat × Point :=
  if p.skipBlanks.rest = [] then (none, p.skipBlanks) else (some p.skipBlanks.pos, p.skipBlanks.next)

theorem tagStep_eq (source : List Char) (hasBraces : Bool) (t : Tag) (p : Point) :
    tagStep source hasBraces t p =
      ((attributeStep hasBraces p).1.foldl (Tag.add source) t, (attributeStep hasBraces p).2) := by
  unfold tagStep attributeStep
  split
  · rfl
  · split <;> rfl

theorem attributeStep_leads_next (hasBraces : Bool) {c : Char} {cs : List Char} (hrest : p.rest = c :: cs) :
    Leads p.next (attributeStep hasBraces p).2 := by
  have hleads := tagStep_leads_next [] hasBraces (.named []) hrest
  rwa [tagStep_eq] at hleads

theorem nextAttribute?_eq_some {here : List Attribute} (h : nextAttribute? hasBraces p = some (here, q)) :
    p.skipBlanks.rest ≠ [] ∧ p.skipBlanks.rest.head? ≠ some '>' ∧
      attributeStep hasBraces p.skipBlanks = (here, q) := by
  unfold nextAttribute? at h
  split at h
  · cases h
  · next hopen =>
    obtain ⟨hne, hend⟩ := not_or.mp hopen
    exact ⟨hne, hend, Option.some.inj h⟩

theorem nextAttribute?_length {here : List Attribute} (h : nextAttribute? hasBraces p = some (here, q)) :
    here.length ≤ 1 := by
  obtain ⟨-, -, hread⟩ := nextAttribute?_eq_some h
  unfold attributeStep at hread
  split at hread
  · cases hread
    exact Nat.zero_le 1
  · split at hread
    · cases hread
      exact Nat.zero_le 1
    · cases hread
      exact Nat.le_refl 1

theorem nextAttribute?_progress {here : List Attribute} (h : nextAttribute? hasBraces p = some (here, q)) :
    Leads p q ∧ q.rest.length < p.rest.length := by
  obtain ⟨hne, -, hstep⟩ := nextAttribute?_eq_some h
  obtain ⟨c, cs, hrest⟩ := List.exists_cons_of_ne_nil hne
  have hleads := attributeStep_leads_next hasBraces hrest
  rw [hstep] at hleads
  have hblanks : Leads p p.skipBlanks := p.leads_skip isAsciiBlank
  have hless : q.rest.length ≤ cs.length := hleads.length_lt hrest
  have hle := hblanks.length_le
  rw [hrest, List.length_cons] at hle
  exact ⟨hblanks.trans ((Point.leads_next _).trans hleads), by omega⟩

theorem exists_attributes (hasBraces : Bool) (p : Point) : ∃ as q,
    Run (nextAttribute? hasBraces) p as q ∧ nextAttribute? hasBraces q = none :=
  Run.exists_end (fun _ _ _ h => (nextAttribute?_progress h).2) p

/-- A run through a tag tells what is read in it. -/
theorem Run.readAttributes_eq {as : List Attribute} (h : Run (nextAttribute? hasBraces) p as q)
    (hend : nextAttribute? hasBraces q = none) (t : Tag) (hfuel : p.rest.length < fuel) :
    readAttributes source hasBraces fuel t p = (as.foldl (Tag.add source) t, q.endOfTag) := by
  induction h generalizing t fuel with
  | refl p =>
    obtain ⟨fuel, rfl⟩ : ∃ n, fuel = n + 1 := ⟨fuel - 1, by omega⟩
    rw [readAttributes_succ, Point.endOfTag]
    unfold nextAttribute? at hend
    split at hend
    · next hdone =>
      rcases hdone with hnil | hlast
      · simp [hnil]
      · have hne : p.skipBlanks.rest ≠ [] := by
          intro hnil
          rw [hnil] at hlast
          cases hlast
        simp [hlast, hne]
    · cases hend
  | @step p q r here behind hstep _ ih =>
    obtain ⟨fuel, rfl⟩ : ∃ n, fuel = n + 1 := ⟨fuel - 1, by omega⟩
    obtain ⟨hne, hopen, hread⟩ := nextAttribute?_eq_some hstep
    have hless := (nextAttribute?_progress hstep).2
    have hnone : p.skipBlanks.rest.head? ≠ none := by simpa using hne
    rw [readAttributes_succ, if_neg hnone, if_neg hopen, tagStep_eq, hread, List.foldl_append]
    exact ih hend _ (by omega)

/-- What a tag is found to say, from its attributes. -/
theorem Run.readTag_eq {as : List Attribute} (h : Run (nextAttribute? hasBraces) p.inTag as q)
    (hend : nextAttribute? hasBraces q = none) : readTag source hasBraces p =
      (as.foldl (Tag.add source) (.named p.tagName)).finish p.tagName q.endOfTag.1 q.endOfTag.2 :=
  Markup.readTag_eq (h.readAttributes_eq hend _ (Nat.lt_succ_self _))

/-! The document. -/

def scanNext? (source : List Char) (hasBraces : Bool) (p : Point) : Option (List Finding × Point) :=
  if p.rest = [] then none else some (scanStep source hasBraces p)

theorem scanNext?_progress {here : List Finding} (h : scanNext? source hasBraces p = some (here, q)) :
    Leads p q ∧ q.rest.length < p.rest.length := by
  unfold scanNext? at h
  split at h
  · cases h
  · next hne =>
    obtain ⟨c, cs, hrest⟩ := List.exists_cons_of_ne_nil hne
    have hleads := scanStep_leads_next source hasBraces p
    rw [Option.some.inj h] at hleads
    have hless : q.rest.length ≤ cs.length := hleads.length_lt hrest
    exact ⟨p.leads_next.trans hleads, by rw [hrest, List.length_cons]; omega⟩

theorem scanNext?_eq_none : scanNext? source hasBraces p = none ↔ p.rest = [] := by
  simp [scanNext?]

theorem Run.leads_scan {found : List Finding} (h : Run (scanNext? source hasBraces) p found q) : Leads p q :=
  h.leads fun _ _ _ hstep => (scanNext?_progress hstep).1

theorem Run.leads_attributes {as : List Attribute} (h : Run (nextAttribute? hasBraces) p as q) : Leads p q :=
  h.leads fun _ _ _ hstep => (nextAttribute?_progress hstep).1

theorem Run.scanFrom_eq {found : List Finding} (h : Run (scanNext? source hasBraces) p found q)
    (hend : q.rest = []) (hfuel : p.rest.length ≤ fuel) : scanFrom source hasBraces fuel p = found := by
  induction h generalizing fuel with
  | refl p => exact scanFrom_end hend
  | @step p q r here behind hstep _ ih =>
    have hless := (scanNext?_progress hstep).2
    obtain ⟨fuel, rfl⟩ : ∃ n, fuel = n + 1 := ⟨fuel - 1, by omega⟩
    unfold scanNext? at hstep
    split at hstep
    · cases hstep
    · next hne => rw [scanFrom_succ hne, Option.some.inj hstep, ih hend (by omega)]

/-- What a run over a whole document brings is what a scan finds. -/
theorem Run.scan_eq {text : String} {found : List Finding}
    (h : Run (scanNext? text.toList hasBraces) (.ofText text) found q) (hend : q.rest = []) :
    scan text hasBraces = found :=
  h.scanFrom_eq hend (Nat.le_refl _)

theorem exists_findings (source : List Char) (hasBraces : Bool) (p : Point) : ∃ found q,
    Run (scanNext? source hasBraces) p found q ∧ q.rest = [] := by
  obtain ⟨found, q, hrun, hend⟩ := Run.exists_end
    (fun _ _ _ (h : scanNext? source hasBraces _ = _) => (scanNext?_progress h).2) p
  exact ⟨found, q, hrun, scanNext?_eq_none.mp hend⟩

/-- A scan runs over the whole document. -/
theorem scan_run (source : String) (hasBraces : Bool) : ∃ q,
    Run (scanNext? source.toList hasBraces) (.ofText source) (scan source hasBraces) q ∧ q.rest = [] := by
  obtain ⟨found, q, hrun, hend⟩ := exists_findings source.toList hasBraces (.ofText source)
  rw [hrun.scan_eq hend]
  exact ⟨q, hrun, hend⟩

/-! Runs from matching points of two documents. -/

variable {b b' source' : List Char} {f : Nat → Nat} {p' : Point} {as : List Attribute}

theorem attributeStep_matched (hb : b'.head? = b.head?) (h : Matched b b' f p p')
    (hroom : b.length ≤ (attributeStep hasBraces p).2.rest.length) :
    (attributeStep hasBraces p').1 = (attributeStep hasBraces p).1.map (Attribute.map f) ∧
      Matched b b' f (attributeStep hasBraces p).2 (attributeStep hasBraces p').2 := by
  unfold attributeStep at hroom ⊢
  rw [h.head hb]
  split
  · next hslash =>
    rw [if_pos hslash] at hroom
    exact ⟨rfl, h.next hb hroom⟩
  · next hslash =>
    rw [if_neg hslash] at hroom
    split
    · next hbraces =>
      rw [if_pos hbraces] at hroom
      exact ⟨rfl, h.pastBraces hb hbraces.1 hroom⟩
    · next hbraces =>
      rw [if_neg hbraces] at hroom
      obtain ⟨hattribute, hafter⟩ := readAttribute_matched hb h hroom
      exact ⟨congrArg ([·]) hattribute, hafter⟩

theorem Run.leads_skipBlanks (h : Run (nextAttribute? hasBraces) p as q) : Leads p.skipBlanks q.skipBlanks := by
  cases h with
  | refl => exact .refl _
  | @step _ r _ here _ hstep hrest =>
    obtain ⟨hne, -, hread⟩ := nextAttribute?_eq_some hstep
    obtain ⟨c, cs, hcons⟩ := List.exists_cons_of_ne_nil hne
    have hleads := (Point.leads_next _).trans (attributeStep_leads_next hasBraces hcons)
    rw [hread] at hleads
    exact hleads.trans (hrest.leads_attributes.trans (Point.leads_skip _ _))

theorem nextAttribute?_of_head (hhead : p'.skipBlanks.rest.head? = p.skipBlanks.rest.head?)
    (h : (nextAttribute? hasBraces p).isSome) :
    nextAttribute? hasBraces p' = some (attributeStep hasBraces p'.skipBlanks) := by
  rw [nextAttribute?, if_neg]
  intro hend
  rw [hhead, ← List.head?_eq_none_iff, hhead, List.head?_eq_none_iff] at hend
  rw [nextAttribute?, if_pos hend] at h
  cases h

/-- Through a tag. White space in front of the attributes makes no difference. -/
theorem Run.attributes_matched (hb : b'.head? = b.head?) (hrun : Run (nextAttribute? hasBraces) p as q)
    (h : Matched b b' f p.skipBlanks p'.skipBlanks) (hroom : b.length ≤ q.skipBlanks.rest.length) :
    ∃ q', Run (nextAttribute? hasBraces) p' (as.map (Attribute.map f)) q' ∧
      Matched b b' f q.skipBlanks q'.skipBlanks := by
  induction hrun generalizing p' with
  | refl p => exact ⟨p', .refl p', h⟩
  | @step p r q here behind hstep hrest ih =>
    obtain ⟨-, -, hread⟩ := nextAttribute?_eq_some hstep
    have hblanks : Leads r r.skipBlanks := r.leads_skip isAsciiBlank
    have hroom₁ : b.length ≤ r.skipBlanks.rest.length := Nat.le_trans hroom hrest.leads_skipBlanks.length_le
    have hroom₂ : b.length ≤ (attributeStep hasBraces p.skipBlanks).2.rest.length := by
      rw [hread]
      exact Nat.le_trans hroom₁ hblanks.length_le
    obtain ⟨hhere, hnext⟩ := attributeStep_matched hb h hroom₂
    rw [hread] at hhere hnext
    obtain ⟨q', hrun, hq⟩ := ih (hnext.skip hb hroom₁).1 hroom
    refine ⟨q', ?_, hq⟩
    rw [List.map_append, ← hhere]
    refine .step ?_ hrun
    rw [nextAttribute?_of_head (h.head hb) (by rw [hstep]; rfl)]

/-- Over a document. -/
theorem Run.scan_matched {found : List Finding} (hb : Exchange b b')
    (hrun : Run (scanNext? source hasBraces) p found q) (h : Matched b b' f p p') (hp : Leads ⟨source, 0⟩ p)
    (hp' : Leads ⟨source', 0⟩ p') (hroom : b.length ≤ q.rest.length) :
    ∃ q', Run (scanNext? source' hasBraces) p' (found.map (Finding.map f)) q' ∧ Matched b b' f q q' := by
  induction hrun generalizing p' with
  | refl p => exact ⟨p', .refl p', h⟩
  | @step p r q here behind hstep hrest ih =>
    have hleads := (scanNext?_progress hstep).1
    unfold scanNext? at hstep
    split at hstep
    · cases hstep
    · next hne =>
      have hread := Option.some.inj hstep
      obtain ⟨c, cs, hcons⟩ := List.exists_cons_of_ne_nil hne
      obtain ⟨cs', hcons'⟩ := h.cons hb.head hcons
      have hroom₁ : b.length ≤ (scanStep source hasBraces p).2.rest.length := by
        rw [hread]
        exact Nat.le_trans hroom hrest.leads_scan.length_le
      obtain ⟨hhere, hnext⟩ := scanStep_matched hasBraces hb h hp hp' hroom₁
      rw [hread] at hhere hnext
      have hstep' : scanNext? source' hasBraces p' = some (scanStep source' hasBraces p') := by
        rw [scanNext?, if_neg]
        rw [hcons']
        exact List.cons_ne_nil c cs'
      have hnext' := p'.leads_next.trans (scanStep_leads_next source' hasBraces p')
      obtain ⟨q', hrun, hq⟩ := ih hnext (hp.trans hleads) (hp'.trans hnext') hroom
      refine ⟨q', ?_, hq⟩
      rw [List.map_append, ← hhere]
      exact .step hstep' hrun

end ClassSort.Markup
