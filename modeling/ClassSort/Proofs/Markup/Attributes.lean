import ClassSort.Proofs.Markup.Runs
import ClassSort.Proofs.Markup.StyleTags

/-!
What a tag is found to say is told by its attributes one for one: its class values are those of the
attributes with this name, and of several `lang` attributes the last one counts.
-/

namespace ClassSort.Markup

open Script (Dialect)

def Attribute.asLang (a : Attribute) : LangAttribute := ⟨⟨a.name.start, a.stop⟩, a.value.map (·.content)⟩

/-- What an attribute of a script tells of its language. -/
def Attribute.dialect (source : List Char) (d : Option Dialect) (a : Attribute) : Option Dialect :=
  match a.value with
  | none => d
  | some v => scriptDialect a.text (String.ofList ((sliceChars? source v.content).getD [])) d

def Attribute.hasName (name : String) (a : Attribute) : Bool := a.text == name.toList

def classValues (as : List Attribute) : List Value := (as.filter (·.hasName "class")).filterMap (·.value)

def lastLang? (as : List Attribute) : Option LangAttribute :=
  (as.filter (·.hasName "lang")).getLast?.map Attribute.asLang

variable {source : List Char} {t : Tag} {as : List Attribute}

theorem Tag.add_eq (source : List Char) (t : Tag) (a : Attribute) : t.add source a =
    { name := t.name
      dialect := if t.isScript then a.dialect source t.dialect else t.dialect
      lang := if t.isStyle && a.hasName "lang" then some a.asLang else t.lang
      classes := if !t.isScript && a.hasName "class" then a.value.toList ++ t.classes else t.classes } := by
  obtain ⟨name, text, value⟩ := a
  unfold Tag.add Attribute.dialect Attribute.asLang Attribute.stop Attribute.hasName
  cases hstyle : t.isStyle && text == "lang".toList with
  | true =>
    cases value with
    | none => cases hscript : t.isScript <;> simp
    | some v =>
      cases hscript : t.isScript with
      | true => simp_all [Tag.isScript, Tag.isStyle]
      | false =>
        cases hclass : text == "class".toList <;> simp_all [Tag.isScript, Tag.isStyle]
  | false =>
    cases value with
    | none => cases hscript : t.isScript <;> simp
    | some v =>
      cases hscript : t.isScript with
      | true => simp [hscript]
      | false => cases hclass : text == "class".toList <;> simp [hscript]

theorem classValues_cons (a : Attribute) (as : List Attribute) : classValues (a :: as) =
    (if a.hasName "class" then a.value.toList else []) ++ classValues as := by
  unfold classValues
  cases hclass : a.hasName "class" with
  | false => simp [hclass]
  | true => cases hvalue : a.value <;> simp [hclass, hvalue]

theorem lastLang?_cons (a : Attribute) (as : List Attribute) : lastLang? (a :: as) =
    (lastLang? as).or (if a.hasName "lang" then some a.asLang else none) := by
  unfold lastLang?
  cases hlang : a.hasName "lang" with
  | false => simp [hlang]
  | true =>
    rw [List.filter_cons_of_pos hlang, List.getLast?_cons]
    cases (as.filter (·.hasName "lang")).getLast? <;> rfl

/-- All attributes of a tag. -/
theorem foldl_add (source : List Char) (t : Tag) (as : List Attribute) : as.foldl (Tag.add source) t =
    { name := t.name
      dialect := if t.isScript then as.foldl (Attribute.dialect source) t.dialect else t.dialect
      lang := if t.isStyle then (lastLang? as).or t.lang else t.lang
      classes := (if t.isScript then [] else (classValues as).reverse) ++ t.classes } := by
  induction as generalizing t with
  | nil =>
    obtain ⟨name, dialect, lang, classes⟩ := t
    simp [lastLang?, classValues]
  | cons a as ih =>
    have hscript : (t.add source a).isScript = t.isScript := by rw [Tag.add_eq]; rfl
    have hstyle : (t.add source a).isStyle = t.isStyle := by rw [Tag.add_eq]; rfl
    rw [List.foldl_cons, ih, hscript, hstyle, Tag.add_eq, lastLang?_cons, classValues_cons, List.foldl_cons]
    refine Tag.mk.injEq .. |>.mpr ⟨rfl, ?_, ?_, ?_⟩
    · cases t.isScript <;> rfl
    · cases t.isStyle <;> cases a.hasName "lang" <;> cases lastLang? as <;> rfl
    · cases t.isScript with
      | true => rfl
      | false => cases a.hasName "class" <;> cases a.value <;> simp

/-! What a tag brings, told by its name and its attributes. -/

def classesFound (name : List Char) (as : List Attribute) : List Finding :=
  if name == "script".toList then [] else (classValues as).map .classes

def bodyFound (source name : List Char) (as : List Attribute) (tagEnd : Nat) (body : Span) : List Finding :=
  if name == "style".toList then [.style ⟨tagEnd, lastLang? as, body⟩]
  else if name == "script".toList then
    ((as.foldl (Attribute.dialect source) (some .javaScript)).map (Finding.script body)).toList
  else []

/-- Behind the body of a script or of a style block; other tags have no body of their own. -/
def Point.behindBody (name : List Char) (p : Point) : Point :=
  if name == "script".toList || name == "style".toList then p.find (closes name) else p

def tagFound (source name : List Char) (as : List Attribute) (q : Point) : List Finding × Point :=
  if q.skipBlanks.rest = [] then (classesFound name as, q.skipBlanks)
  else
    let after := q.skipBlanks.next
    (classesFound name as ++
        bodyFound source name as q.skipBlanks.pos ⟨after.pos, (after.behindBody name).pos⟩,
      after.behindBody name)

theorem finish_foldl_add (source name : List Char) (as : List Attribute) (q : Point) :
    (as.foldl (Tag.add source) (.named name)).finish name q.endOfTag.1 q.endOfTag.2 =
      tagFound source name as q := by
  rw [foldl_add]
  unfold tagFound Point.endOfTag Tag.finish Tag.found Tag.named Tag.isScript Tag.isStyle
  have hclasses : ((if name == "script".toList then [] else (classValues as).reverse) ++ []).reverse.map
      Finding.classes = classesFound name as := by
    unfold classesFound
    split <;> simp
  dsimp only
  rw [hclasses]
  by_cases hrest : q.skipBlanks.rest = []
  · simp only [if_pos hrest]
  · simp only [if_neg hrest]
    unfold Point.behindBody bodyFound
    cases hstyle : name == "style".toList with
    | true => simp
    | false => cases hscript : name == "script".toList <;> simp

theorem Run.readTag_found {hasBraces : Bool} {p q : Point} (h : Run (nextAttribute? hasBraces) p.inTag as q)
    (hend : nextAttribute? hasBraces q = none) : readTag source hasBraces p = tagFound source p.tagName as q :=
  (h.readTag_eq hend).trans (finish_foldl_add ..)

/-- Every tag is read to its end, or to that of the document. -/
theorem exists_tagFound (source : List Char) (hasBraces : Bool) (p : Point) : ∃ as q,
    Run (nextAttribute? hasBraces) p.inTag as q ∧ nextAttribute? hasBraces q = none ∧
      readTag source hasBraces p = tagFound source p.tagName as q := by
  obtain ⟨as, q, hrun, hend⟩ := exists_attributes hasBraces p.inTag
  exact ⟨as, q, hrun, hend, hrun.readTag_found hend⟩

/-! What is found in a tag. -/

variable {name : List Char} {q : Point}

theorem body_of_tagFound {f : Finding} (hf : ∀ v, f ≠ .classes v) (h : f ∈ (tagFound source name as q).1) :
    q.skipBlanks.rest ≠ [] ∧ f ∈ bodyFound source name as q.skipBlanks.pos
      ⟨q.skipBlanks.next.pos, (q.skipBlanks.next.behindBody name).pos⟩ := by
  have hnone : f ∉ classesFound name as := by
    unfold classesFound
    split
    · exact List.not_mem_nil
    · intro hmem
      obtain ⟨v, -, hsame⟩ := List.mem_map.mp hmem
      exact hf v hsame.symm
  unfold tagFound at h
  split at h
  · exact absurd h hnone
  · next hne => exact ⟨hne, (List.mem_append.mp h).resolve_left hnone⟩

theorem style_of_bodyFound {block : StyleBlock} {tagEnd : Nat} {body : Span}
    (h : .style block ∈ bodyFound source name as tagEnd body) :
    name = "style".toList ∧ block = ⟨tagEnd, lastLang? as, body⟩ := by
  unfold bodyFound at h
  split at h
  · next hname =>
    have hsame := List.mem_singleton.mp h
    cases hsame
    exact ⟨eq_of_beq hname, rfl⟩
  · split at h
    · simp at h
    · cases h

theorem script_of_bodyFound {content : Span} {dialect : Dialect} {tagEnd : Nat} {body : Span}
    (h : .script content dialect ∈ bodyFound source name as tagEnd body) : content = body ∧
      name = "script".toList ∧ as.foldl (Attribute.dialect source) (some .javaScript) = some dialect := by
  unfold bodyFound at h
  split at h
  · simp at h
  · split at h
    · next hname =>
      obtain ⟨d, hd, hsame⟩ := Option.map_eq_some_iff.mp (Option.mem_toList.mp h)
      cases hsame
      exact ⟨rfl, eq_of_beq hname, hd⟩
    · cases h

theorem readValue_none {hasBraces : Bool} {p : Point} (h : (readValue hasBraces p).1 = none) :
    (readValue hasBraces p).2.rest = [] := by
  unfold readValue at h ⊢
  split
  · next hrest => exact hrest
  · next hrest =>
    rw [hrest] at h
    dsimp only at h
    split at h
    · cases h
    · split at h
      · cases h
      · cases h

theorem readAttribute_text (hasBraces : Bool) (p : Point) :
    (readAttribute hasBraces p).1.text = p.rest.takeWhile (!endsName ·) := by
  unfold readAttribute
  dsimp only
  split
  · next hempty => exact (List.isEmpty_iff.mp hempty).symm
  · split
    · rfl
    · rfl

/-- From where an attribute ends there is only white space up to where a tag is read on. -/
theorem readAttribute_ends {hasBraces : Bool} {p : Point} (hname : (readAttribute hasBraces p).1.text ≠ [])
    (hrest : (readAttribute hasBraces p).2.rest ≠ []) : ∃ q, Leads p.next q ∧
      (readAttribute hasBraces p).1.stop = q.pos ∧ q.skipBlanks = (readAttribute hasBraces p).2.skipBlanks := by
  have hletters : p.rest.takeWhile (!endsName ·) ≠ [] := by rwa [readAttribute_text] at hname
  have hbehind : Leads p.next (p.skip (!endsName ·)) := by
    cases hp : p.rest with
    | nil => exact absurd (by rw [hp]; rfl) hletters
    | cons c cs =>
      refine Point.leads_next_skip hp ?_
      by_contra hc
      rw [hp, List.takeWhile_cons_of_neg (p := (!endsName ·)) hc] at hletters
      exact hletters rfl
  by_cases hvalue : HasValue p
  · rw [hvalue.readAttribute_eq] at hrest ⊢
    have hstart : Leads p.next p.behindEquals :=
      hbehind.trans (((Point.leads_skip _ _).trans (Point.leads_next _)).trans (Point.leads_skip _ _))
    refine ⟨_, hstart.trans (readValue_leads hasBraces p.behindEquals), ?_, rfl⟩
    cases hread : (readValue hasBraces p.behindEquals).1 with
    | none => exact absurd (readValue_none hread) hrest
    | some v => exact readValue_stop v hread
  · refine ⟨_, hbehind, ?_⟩
    have hempty : (p.rest.takeWhile (!endsName ·)).isEmpty = false := by simpa using hletters
    have hequals : (p.skip (!endsName ·)).skipBlanks.sees ['='] = false :=
      Bool.eq_false_iff.mpr fun hsees => hvalue ⟨hempty, hsees⟩
    unfold readAttribute
    dsimp only
    rw [hempty, hequals, if_neg Bool.false_ne_true, if_neg Bool.false_ne_true]
    exact ⟨rfl, (Point.skip_skip isAsciiBlank _).symm⟩

/-- The attribute that counts is the last one with the name. -/
theorem exists_lastLang {lang : LangAttribute} (h : lastLang? as = some lang) : ∃ front a back,
    as = front ++ a :: back ∧ a.hasName "lang" = true ∧ lang = a.asLang ∧ ∀ b ∈ back, b.hasName "lang" = false := by
  obtain ⟨a, ha, hsame⟩ := Option.map_eq_some_iff.mp h
  rw [← List.head?_reverse, ← List.filter_reverse, List.head?_filter, List.find?_eq_some_iff_append] at ha
  obtain ⟨hname, back, front, hsplit, hback⟩ := ha
  refine ⟨front.reverse, a, back.reverse, ?_, hname, hsame.symm, ?_⟩
  · have hreversed := congrArg List.reverse hsplit
    simpa using hreversed
  · intro b hb
    simpa using hback b (List.mem_reverse.mp hb)

theorem lang_of_lastLang? {lang : LangAttribute} (h : lastLang? as = some lang) :
    ∃ a ∈ as, a.hasName "lang" = true ∧ lang = a.asLang := by
  obtain ⟨front, a, back, rfl, hname, hlang, -⟩ := exists_lastLang h
  exact ⟨a, List.mem_append_right _ List.mem_cons_self, hname, hlang⟩

theorem lastLang?_append (front back : List Attribute) : lastLang? (front ++ back) =
    (lastLang? back).or (lastLang? front) := by
  unfold lastLang?
  rw [List.filter_append, List.getLast?_append, Option.map_or]

theorem lastLang?_eq_none : lastLang? as = none ↔ ∀ a ∈ as, a.hasName "lang" = false := by
  simp [lastLang?]

theorem classValues_append (front back : List Attribute) :
    classValues (front ++ back) = classValues front ++ classValues back := by
  unfold classValues
  rw [List.filter_append, List.filterMap_append]

theorem classValues_map (f : Nat → Nat) (as : List Attribute) :
    classValues (as.map (Attribute.map f)) = (classValues as).map (Value.map f) := by
  induction as with
  | nil => rfl
  | cons a as ih =>
    have hname : (a.map f).hasName "class" = a.hasName "class" := rfl
    rw [List.map_cons, classValues_cons, classValues_cons, ih, hname, List.map_append]
    cases a.hasName "class" with
    | false => rfl
    | true =>
      obtain ⟨name, text, value⟩ := a
      cases value with
      | none => rfl
      | some v => rfl

end ClassSort.Markup
