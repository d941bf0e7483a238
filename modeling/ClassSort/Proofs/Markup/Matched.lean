import ClassSort.Proofs.Markup.Braced
import ClassSort.Proofs.Markup.Standing
import ClassSort.Proofs.Text.Cuts
import Mathlib.Data.List.TakeWhile

/-!
Two documents that are the same but for what stands between two quotes, or within a tag. As long as a scan
of one of them stays in front of that, or comes to a point behind it, a scan of the other does the same at
the point that matches: it looks at the same characters, and only positions are different.
-/

namespace ClassSort

def Span.map (f : Nat → Nat) (s : Span) : Span := ⟨f s.start, f s.stop⟩

namespace Markup

/-- How two documents go on where they may differ: with the same, or with a quote, an opening brace or the
beginning of a tag and anything behind it. -/
inductive Exchange : List Char → List Char → Prop
  | same (text : List Char) : Exchange text text
  | quoted {quote : Char} (isQuote : quote = '"' ∨ quote = '\'') (text text' : List Char) :
      Exchange (quote :: text) (quote :: text')
  | braces (text text' : List Char) : Exchange ('\x7b' :: text) ('\x7b' :: text')
  | tag {c : Char} (isLetter : c.isAlpha = true) (text text' : List Char) :
      Exchange ('<' :: c :: text) ('<' :: c :: text')

/-- A character with which nothing begins that may be exchanged. -/
structure Neutral (c : Char) : Prop where
  double : c ≠ '"'
  single : c ≠ '\''
  brace : c ≠ '\x7b'
  angle : c ≠ '<'

instance (c : Char) : Decidable (Neutral c) :=
  decidable_of_iff (c ≠ '"' ∧ c ≠ '\'' ∧ c ≠ '\x7b' ∧ c ≠ '<')
    ⟨fun ⟨double, single, brace, angle⟩ => ⟨double, single, brace, angle⟩,
      fun ⟨double, single, brace, angle⟩ => ⟨double, single, brace, angle⟩⟩

/-- The same text stands behind both points, up to where the documents may differ. `f` tells where a
position in it is in the second document. -/
def Matched (b b' : List Char) (f : Nat → Nat) (p p' : Point) : Prop :=
  ∃ text, p.rest = text ++ b ∧ p'.rest = text ++ b' ∧
    ∀ n ≤ byteLength text, f (p.pos + n) = p'.pos + n

def Blind (test : List Char → Bool) : Prop :=
  ∀ text b b', Exchange b b' → test (text ++ b') = test (text ++ b)

variable {b b' cs : List Char} {f : Nat → Nat} {p p' q q' : Point}

theorem Exchange.head (h : Exchange b b') : b'.head? = b.head? := by
  cases h <;> rfl

theorem eq_nil_of_head (h : b'.head? = ([] : List Char).head?) : b' = [] := List.head?_eq_none_iff.mp h

def Diverge (b b' : List Char) : Prop :=
  b' = b ∨ ∃ x text text', b = x :: text ∧ b' = x :: text' ∧ ¬ Neutral x

theorem Exchange.diverge (h : Exchange b b') : Diverge b b' := by
  cases h with
  | same => exact .inl rfl
  | quoted hquote text text' =>
    refine .inr ⟨_, _, _, rfl, rfl, fun h => ?_⟩
    exact hquote.elim h.double h.single
  | braces => exact .inr ⟨_, _, _, rfl, rfl, fun h => h.brace rfl⟩
  | tag => exact .inr ⟨_, _, _, rfl, rfl, fun h => h.angle rfl⟩

theorem Diverge.isPrefixOf {mark : List Char} (h : Diverge b b') (hmark : ∀ c ∈ mark, Neutral c)
    (text : List Char) : mark.isPrefixOf (text ++ b') = mark.isPrefixOf (text ++ b) := by
  obtain rfl | ⟨x, rest, rest', rfl, rfl, hx⟩ := h
  · rfl
  · induction mark generalizing text with
    | nil => rfl
    | cons m mark ih =>
      obtain ⟨hm, hmark⟩ := List.forall_mem_cons.mp hmark
      cases text with
      | nil =>
        have hne : (m == x) = false := by
          rw [beq_eq_false_iff_ne]
          rintro rfl
          exact hx hm
        simp [List.isPrefixOf, hne]
      | cons c text => simp only [List.cons_append, List.isPrefixOf, ih hmark text]

/-- Neutral marks are seen, or not, whatever may be exchanged. -/
theorem blind_isPrefixOf {mark : List Char} (hmark : ∀ c ∈ mark, Neutral c) : Blind mark.isPrefixOf :=
  fun text _ _ hb => hb.diverge.isPrefixOf hmark text

/-- So are marks that begin like a tag but go on in another way. -/
theorem blind_tagMark {mark : List Char} {d : Char} (hd : d.isAlpha = false) (hmark : ∀ c ∈ d :: mark, Neutral c) :
    Blind ('<' :: d :: mark).isPrefixOf := by
  intro text b b' hb
  cases text with
  | nil =>
    cases hb with
    | same => rfl
    | quoted hquote => rcases hquote with rfl | rfl <;> rfl
    | braces => rfl
    | tag hletter =>
      have hne : (d == ‹Char›) = false := by
        rw [beq_eq_false_iff_ne]
        rintro rfl
        rw [hd] at hletter
        cases hletter
      simp [List.isPrefixOf, hne]
  | cons c text => exact congrArg ('<' == c && ·) (hb.diverge.isPrefixOf hmark text)

theorem Crosses.unique (h : Crosses p q cs) (h' : Crosses p q' cs) : q = q' := by
  obtain ⟨rest, pos⟩ := q
  obtain ⟨rest', pos'⟩ := q'
  have hrest := List.append_cancel_left (h.rest.symm.trans h'.rest)
  have hpos := h.pos.trans h'.pos.symm
  simp_all

theorem Leads.length_le (h : Leads p q) : q.rest.length ≤ p.rest.length := by
  obtain ⟨text, hcrosses⟩ := h
  rw [hcrosses.rest, List.length_append]
  omega

namespace Matched

theorem pos (h : Matched b b' f p p') : p'.pos = f p.pos := by
  obtain ⟨text, -, -, hshift⟩ := h
  exact (hshift 0 (Nat.zero_le _)).symm

theorem head (hb : b'.head? = b.head?) (h : Matched b b' f p p') : p'.rest.head? = p.rest.head? := by
  obtain ⟨text, hp, hp', -⟩ := h
  rw [hp, hp', List.head?_append, List.head?_append, hb]

theorem test_eq (hb : Exchange b b') (h : Matched b b' f p p') {test : List Char → Bool}
    (htest : Blind test) : test p'.rest = test p.rest := by
  obtain ⟨text, hp, hp', -⟩ := h
  rw [hp, hp']
  exact htest text b b' hb

/-- A reader that has not come to where the documents differ has crossed the same text in both. -/
theorem crosses (h : Matched b b' f p p') (hq : Crosses p q cs) (hroom : b.length ≤ q.rest.length) :
    ∃ ahead, q.rest = ahead ++ b ∧ p'.rest = cs ++ (ahead ++ b') ∧
      ∀ q', Leads p' q' → q'.rest = ahead ++ b' → Matched b b' f q q' := by
  obtain ⟨text, hp, hp', hshift⟩ := h
  have hsplit : cs ++ q.rest = text ++ b := hq.rest.symm.trans hp
  obtain ⟨ahead, rfl, hrest⟩ : ∃ ahead, text = cs ++ ahead ∧ q.rest = ahead ++ b := by
    rcases List.append_eq_append_iff.mp hsplit with h | ⟨between, rfl, rfl⟩
    · exact h
    · have hnone : between = [] := by
        rw [List.length_append] at hroom
        exact List.length_eq_zero_iff.mp (by omega)
      exact ⟨[], by simp [hnone], by simp [hnone]⟩
  refine ⟨ahead, hrest, by rw [hp', List.append_assoc], ?_⟩
  intro q' ⟨text', hq'⟩ hrest'
  have hsame : text' = cs := by
    have hback := hq'.rest
    rw [hp', hrest', List.append_assoc] at hback
    exact (List.append_cancel_right hback).symm
  refine ⟨ahead, hrest, hrest', ?_⟩
  intro n hn
  have hwithin : byteLength cs + n ≤ byteLength (cs ++ ahead) := by
    rw [byteLength_append]
    omega
  rw [hq.pos, hq'.pos, hsame, Nat.add_assoc, hshift _ hwithin, Nat.add_assoc]

theorem shift (h : Matched b b' f p p') (hq : Leads p q) (hroom : b.length ≤ q.rest.length) {n : Nat}
    (hle : p.pos ≤ n) (hn : n ≤ q.pos) : f n = p'.pos + (n - p.pos) := by
  obtain ⟨cs, hcrosses⟩ := hq
  obtain ⟨ahead, hahead, -, -⟩ := h.crosses hcrosses hroom
  obtain ⟨text, hp, -, hshift⟩ := h
  have htext : text = cs ++ ahead := by
    have hsplit := hcrosses.rest
    rw [hp, hahead, ← List.append_assoc] at hsplit
    exact List.append_cancel_right hsplit
  have hwithin : n - p.pos ≤ byteLength text := by
    have hpos := hcrosses.pos
    rw [htext, byteLength_append]
    omega
  have hat := hshift (n - p.pos) hwithin
  rwa [Nat.add_sub_cancel' hle] at hat

/-! The steps of a scan. -/

theorem next (hb : b'.head? = b.head?) (h : Matched b b' f p p') (hroom : b.length ≤ p.next.rest.length) :
    Matched b b' f p.next p'.next := by
  obtain ⟨text, hp, hp', hshift⟩ := h
  cases text with
  | nil =>
    -- nothing is passed at the end only
    have hnil : b = [] := by
      cases b with
      | nil => rfl
      | cons c b =>
        simp only [Point.next, hp, List.nil_append, List.length_cons] at hroom
        omega
    subst hnil
    have hsame : p.next = p := by simp [Point.next, hp]
    have hsame' : p'.next = p' := by simp [Point.next, hp', eq_nil_of_head hb]
    rw [hsame, hsame']
    exact ⟨[], hp, hp', hshift⟩
  | cons c text =>
    refine ⟨text, by simp [Point.next, hp], by simp [Point.next, hp'], ?_⟩
    intro n hn
    have hat := hshift (c.utf8Size + n) (Nat.add_le_add_left hn _)
    simpa [Point.next, hp, hp', Nat.add_assoc] using hat

theorem skip (hb : b'.head? = b.head?) (h : Matched b b' f p p') {test : Char → Bool}
    (hroom : b.length ≤ (p.skip test).rest.length) :
    Matched b b' f (p.skip test) (p'.skip test) ∧ p'.rest.takeWhile test = p.rest.takeWhile test := by
  have hcrosses : Crosses p (p.skip test) (p.rest.takeWhile test) :=
    ⟨List.takeWhile_append_dropWhile.symm, rfl⟩
  obtain ⟨ahead, hahead, hp', hmove⟩ := h.crosses hcrosses hroom
  have hall : ∀ c ∈ p.rest.takeWhile test, test c = true := fun c hc => List.mem_takeWhile_imp hc
  have hstop : ∀ c, (ahead ++ b').head? = some c → test c = false := by
    intro c hc
    rw [List.head?_append, hb, ← List.head?_append, ← hahead] at hc
    have hne : p.rest.dropWhile test ≠ [] := by
      intro hnil
      rw [show (p.skip test).rest = p.rest.dropWhile test from rfl, hnil] at hc
      cases hc
    have hfirst := List.head_dropWhile_not test hne
    rw [show (p.skip test).rest = p.rest.dropWhile test from rfl, List.head?_eq_some_head hne,
      Option.some.injEq] at hc
    rwa [hc] at hfirst
  have hkept : (ahead ++ b').dropWhile test = ahead ++ b' ∧ (ahead ++ b').takeWhile test = [] := by
    cases hrest : ahead ++ b' with
    | nil => exact ⟨rfl, rfl⟩
    | cons c cs =>
      have hc := hstop c (by rw [hrest]; rfl)
      exact ⟨List.dropWhile_cons_of_neg (by simp [hc]), List.takeWhile_cons_of_neg (by simp [hc])⟩
  constructor
  · apply hmove _ (p'.leads_skip test)
    show p'.rest.dropWhile test = ahead ++ b'
    rw [hp', List.dropWhile_append_of_pos hall, hkept.1]
  · rw [hp', List.takeWhile_append_of_pos hall, hkept.2, List.append_nil]

theorem ahead (h : Matched b b' f p p') (n : Nat) (hlength : n ≤ p.rest.length)
    (hroom : b.length ≤ (p.ahead n).rest.length) : Matched b b' f (p.ahead n) (p'.ahead n) := by
  have hcrosses : Crosses p (p.ahead n) (p.rest.take n) := ⟨(List.take_append_drop n p.rest).symm, rfl⟩
  obtain ⟨rest, hrest, hp', hmove⟩ := h.crosses hcrosses hroom
  apply hmove _ (p'.leads_ahead n)
  show p'.rest.drop n = rest ++ b'
  have htaken : (p.rest.take n).length = n := List.length_take_of_le hlength
  rw [hp', List.drop_left' htaken]

end Matched

/-- Where a search stops: the test fails at every place that is passed, and holds where it stops. -/
theorem findFrom_rest_iff {test : List Char → Bool} {rest : List Char} {n : Nat} :
    (Point.findFrom test (cs ++ rest) n).rest = rest ↔
      (∀ front back, cs = front ++ back → back ≠ [] → test (back ++ rest) = false) ∧
        (rest = [] ∨ test rest = true) := by
  induction cs generalizing n with
  | nil =>
    have hnone : ∀ front back : List Char, [] = front ++ back → back ≠ [] → test (back ++ rest) = false := by
      intro front back hsplit hne
      exact absurd (List.append_eq_nil_iff.mp hsplit.symm).2 hne
    rw [List.nil_append, and_iff_right hnone]
    cases rest with
    | nil => simp [Point.findFrom]
    | cons c rest =>
      rw [Point.findFrom]
      split
      · next htest => simp [htest]
      · next htest =>
        have hle := (Point.leads_findFrom test rest (n + c.utf8Size)).length_le
        constructor
        · intro heq
          rw [heq] at hle
          exact absurd hle (Nat.not_succ_le_self _)
        · simp [htest]
  | cons c cs ih =>
    rw [List.cons_append, Point.findFrom]
    split
    · next htest =>
      constructor
      · intro heq
        have hlength := congrArg List.length heq
        simp only [List.length_cons, List.length_append] at hlength
        omega
      · rintro ⟨hnone, -⟩
        have hfails := hnone [] (c :: cs) rfl (by simp)
        rw [List.cons_append, htest] at hfails
        cases hfails
    · next htest =>
      rw [ih]
      apply and_congr_left
      intro _
      refine ⟨fun hnone front back hsplit hne => ?_, fun hnone front back hsplit hne => ?_⟩
      · cases front with
        | nil =>
          rw [List.nil_append] at hsplit
          rw [← hsplit, List.cons_append]
          simpa using htest
        | cons d front => exact hnone front back (List.cons.inj hsplit).2 hne
      · exact hnone (c :: front) back (by rw [hsplit, List.cons_append]) hne

theorem Matched.find (hb : Exchange b b') (h : Matched b b' f p p') {test : List Char → Bool}
    (htest : Blind test) (hroom : b.length ≤ (p.find test).rest.length) :
    Matched b b' f (p.find test) (p'.find test) := by
  obtain ⟨cs, hcrosses⟩ := p.leads_find test
  obtain ⟨ahead, hahead, hp', hmove⟩ := h.crosses hcrosses hroom
  apply hmove _ (p'.leads_find test)
  have hfound : (Point.findFrom test (cs ++ (ahead ++ b)) p.pos).rest = ahead ++ b := by
    rw [← hahead, ← hcrosses.rest]
    rfl
  obtain ⟨hnone, hstop⟩ := findFrom_rest_iff.mp hfound
  show (Point.findFrom test p'.rest p'.pos).rest = ahead ++ b'
  rw [hp']
  refine findFrom_rest_iff.mpr ⟨?_, ?_⟩
  · intro front back hsplit hne
    rw [← List.append_assoc, htest (back ++ ahead) b b' hb, List.append_assoc]
    exact hnone front back hsplit hne
  · rw [htest ahead b b' hb]
    refine hstop.imp_left ?_
    intro hnil
    obtain ⟨rfl, rfl⟩ := List.append_eq_nil_iff.mp hnil
    rw [eq_nil_of_head hb.head]
    rfl

/-! Expressions in braces. -/

theorem Matched.pastBraces (hb : b'.head? = b.head?) (h : Matched b b' f p p') (hopen : p.rest.head? = some '\x7b')
    (hroom : b.length ≤ p.pastBraces.rest.length) : Matched b b' f p.pastBraces p'.pastBraces := by
  by_cases hend : p.pastBraces.rest = []
  · -- an expression that is never closed runs to the end of both
    obtain ⟨cs, hcrosses⟩ := p.leads_pastBraces
    obtain ⟨ahead, hahead, hp', hmove⟩ := h.crosses hcrosses hroom
    rw [hend] at hahead
    obtain ⟨rfl, rfl⟩ := List.append_eq_nil_iff.mp hahead.symm
    obtain rfl := eq_nil_of_head hb
    have hp := hcrosses.rest
    rw [hend] at hp
    apply hmove _ p'.leads_pastBraces
    rw [← hahead, ← hend]
    have hsame : p'.rest = p.rest := by rw [hp', hp, List.append_nil]
    rw [Point.pastBraces, Point.pastBraces, hsame, closeFrom_rest _ _ _ p'.pos p.pos]
  · obtain ⟨text, hbraced, hcrosses⟩ := Point.pastBraces_braced hopen hend
    obtain ⟨ahead, -, hp', hmove⟩ := h.crosses hcrosses hroom
    apply hmove _ p'.leads_pastBraces
    have hpast := hbraced.past (ahead ++ b') p'.pos
    rw [← hp'] at hpast
    exact congrArg Point.rest hpast

theorem Matched.nil (hb : b'.head? = b.head?) (h : Matched b b' f p p') (hrest : p.rest = []) : p'.rest = [] := by
  have hhead := h.head hb
  rw [hrest] at hhead
  exact List.head?_eq_none_iff.mp hhead

theorem Point.sees_singleton (c : Char) (p : Point) : p.sees [c] = (p.rest.head? == some c) := by
  cases hrest : p.rest with
  | nil => simp [sees, hrest]
  | cons d ds => simp [sees, hrest, List.isPrefixOf, Bool.beq_eq_decide_eq, eq_comm]

theorem Matched.sees_eq (hb : b'.head? = b.head?) (h : Matched b b' f p p') (c : Char) :
    p'.sees [c] = p.sees [c] := by
  rw [Point.sees_singleton, Point.sees_singleton, h.head hb]

theorem Matched.cons (hb : b'.head? = b.head?) (h : Matched b b' f p p') {c : Char} (hrest : p.rest = c :: cs) :
    ∃ cs', p'.rest = c :: cs' := by
  have hhead := h.head hb
  rw [hrest] at hhead
  exact List.head?_eq_some_iff.mp hhead

theorem Point.leads_next_pastBraces {p : Point} (hopen : p.rest.head? = some '\x7b') :
    Leads p.next p.pastBraces := by
  obtain ⟨cs, hrest⟩ := List.head?_eq_some_iff.mp hopen
  obtain ⟨text, hcrosses, -⟩ := closesAt_closeFrom .code 1 cs (p.pos + 1)
  have hnext : p.next = ⟨cs, p.pos + 1⟩ := by
    rw [Point.next, hrest]
    rfl
  have hpast : p.pastBraces = closeFrom .code 1 cs (p.pos + 1) := by
    rw [Point.pastBraces, hrest, closeFrom]
  rw [hnext, hpast]
  exact ⟨text, hcrosses⟩

/-- A step that passes the first character leaves less to be read. -/
theorem Leads.length_lt (h : Leads p.next q) {c : Char} (hrest : p.rest = c :: cs) :
    q.rest.length ≤ cs.length := by
  have hle := h.length_le
  have hnext : p.next.rest = cs := by rw [Point.next, hrest]
  rwa [hnext] at hle

/-! Values and attributes, with positions in the second document. -/

def Part.map (f : Nat → Nat) : Part → Part
  | .text s => .text (s.map f)
  | .braces s => .braces (s.map f)

def Value.map (f : Nat → Nat) (v : Value) : Value := ⟨v.span.map f, v.isQuoted, v.parts.map (Part.map f)⟩

def Attribute.map (f : Nat → Nat) (a : Attribute) : Attribute :=
  ⟨a.name.map f, a.text, a.value.map (Value.map f)⟩

variable {hasBraces : Bool} {quote : Char} {fuel fuel' start start' : Nat} {parts : List Part}

theorem quotedParts_end (h : p.rest = []) :
    quotedParts hasBraces quote fuel start p = (textPart start p.pos, p) := by
  cases fuel with
  | zero => rfl
  | succ fuel => rw [quotedParts, h]

theorem quotedParts_leads {close : Point} (h : quotedParts hasBraces quote fuel start p = (parts, close)) :
    Leads p close := by
  induction fuel generalizing start p parts with
  | zero =>
    cases h
    exact .refl _
  | succ fuel ih =>
    rw [quotedParts] at h
    split at h
    · cases h
      exact .refl _
    · split at h
      · cases h
        exact .refl _
      · split at h
        · cases h
          exact p.leads_pastBraces.trans (ih rfl)
        · exact p.leads_next.trans (ih h)

theorem textPart_map {m m' n n' : Nat} (hm : f m = m') (hn : f n = n') (hlt : m < n ↔ m' < n') :
    textPart m' n' = (textPart m n).map (Part.map f) := by
  unfold textPart
  by_cases h : m < n
  · rw [if_pos h, if_pos (hlt.mp h)]
    simp [Part.map, Span.map, hm, hn]
  · rw [if_neg h, if_neg (mt hlt.mpr h)]
    rfl

theorem quotedParts_matched (hb : b'.head? = b.head?) {close : Point} (h : Matched b b' f p p')
    (hle : start ≤ p.pos) (hstart : f start = start') (hwidth : p'.pos = start' + (p.pos - start))
    (hfuel : p.rest.length ≤ fuel) (hfuel' : p'.rest.length ≤ fuel')
    (hread : quotedParts hasBraces quote fuel start p = (parts, close))
    (hroom : b.length ≤ close.rest.length) :
    ∃ close', quotedParts hasBraces quote fuel' start' p' = (parts.map (Part.map f), close') ∧
      Matched b b' f close close' := by
  induction fuel generalizing p p' fuel' start start' parts with
  | zero =>
    have hrest : p.rest = [] := List.length_eq_zero_iff.mp (Nat.le_zero.mp hfuel)
    rw [quotedParts_end hrest] at hread
    cases hread
    refine ⟨p', ?_, h⟩
    rw [quotedParts_end (h.nil hb hrest), textPart_map hstart h.pos.symm (by omega)]
  | succ fuel ih =>
    have htext : textPart start' p'.pos = (textPart start p.pos).map (Part.map f) :=
      textPart_map hstart h.pos.symm (by omega)
    cases hrest : p.rest with
    | nil =>
      rw [quotedParts_end hrest] at hread
      cases hread
      exact ⟨p', by rw [quotedParts_end (h.nil hb hrest), htext], h⟩
    | cons c rest =>
      obtain ⟨rest', hrest'⟩ := h.cons hb hrest
      rw [hrest, List.length_cons] at hfuel
      rw [hrest', List.length_cons] at hfuel'
      obtain ⟨fuel', rfl⟩ : ∃ n, fuel' = n + 1 := ⟨fuel' - 1, by omega⟩
      rw [quotedParts, hrest] at hread
      rw [quotedParts, hrest']
      dsimp only at hread ⊢
      by_cases hquote : (c == quote) = true
      · rw [if_pos hquote] at hread ⊢
        cases hread
        exact ⟨p', by rw [htext], h⟩
      · rw [if_neg hquote] at hread ⊢
        by_cases hbraces : (c == '\x7b' && hasBraces) = true
        · rw [if_pos hbraces] at hread ⊢
          obtain ⟨inner, last, hinner⟩ : ∃ inner last,
              quotedParts hasBraces quote fuel p.pastBraces.pos p.pastBraces = (inner, last) :=
            ⟨_, _, rfl⟩
          have hlast := quotedParts_leads hinner
          rw [hinner] at hread
          cases hread
          have hopen : p.rest.head? = some '\x7b' := by
            simp only [Bool.and_eq_true, beq_iff_eq] at hbraces
            rw [hrest, hbraces.1]
            rfl
          have hpast := h.pastBraces hb hopen (Nat.le_trans hroom hlast.length_le)
          have hfirst := (Point.leads_next_pastBraces hopen).length_lt hrest
          have hfirst' := (Point.leads_next_pastBraces ((h.head hb).trans hopen)).length_lt hrest'
          have hshort : p.pastBraces.rest.length ≤ fuel := by omega
          have hshort' : p'.pastBraces.rest.length ≤ fuel' := by omega
          obtain ⟨close', hread', hclose⟩ :=
            ih hpast (Nat.le_refl _) hpast.pos.symm (by omega) hshort hshort' hinner
          refine ⟨close', ?_, hclose⟩
          rw [hread', htext]
          simp [Part.map, Span.map, h.pos, hpast.pos]
        · rw [if_neg hbraces] at hread ⊢
          have hroom' := Nat.le_trans hroom (quotedParts_leads hread).length_le
          have hnext := h.next hb hroom'
          have hpos := p.pos_le_next
          have hshift := h.shift p.leads_next hroom' hpos (Nat.le_refl _)
          rw [← hnext.pos] at hshift
          have hfirst := (Leads.refl p.next).length_lt hrest
          have hfirst' := (Leads.refl p'.next).length_lt hrest'
          have hshort : p.next.rest.length ≤ fuel := by omega
          have hshort' : p'.next.rest.length ≤ fuel' := by omega
          exact ih hnext (by omega) hstart (by omega) hshort hshort' hread

theorem readQuoted_matched (hb : b'.head? = b.head?) (h : Matched b b' f p p')
    (hroom : b.length ≤ (readQuoted hasBraces quote p).2.rest.length) :
    (readQuoted hasBraces quote p').1 = (readQuoted hasBraces quote p).1.map f ∧
      Matched b b' f (readQuoted hasBraces quote p).2 (readQuoted hasBraces quote p').2 := by
  obtain ⟨parts, close, hread⟩ : ∃ parts close,
      quotedParts hasBraces quote p.next.rest.length p.next.pos p.next = (parts, close) := ⟨_, _, rfl⟩
  simp only [readQuoted, hread] at hroom ⊢
  have hroom' := Nat.le_trans hroom close.leads_next.length_le
  have hnext := h.next hb (Nat.le_trans hroom' (quotedParts_leads hread).length_le)
  obtain ⟨close', hread', hmatched⟩ := quotedParts_matched hb hnext (Nat.le_refl _) hnext.pos.symm (by omega)
    (Nat.le_refl _) (Nat.le_refl p'.next.rest.length) hread hroom'
  have hafter := hmatched.next hb hroom
  simp only [hread']
  refine ⟨?_, hafter⟩
  rw [Value.map, Span.map, h.pos, hafter.pos]

theorem readValue_matched (hb : b'.head? = b.head?) (h : Matched b b' f p p')
    (hroom : b.length ≤ (readValue hasBraces p).2.rest.length) :
    (readValue hasBraces p').1 = (readValue hasBraces p).1.map (Value.map f) ∧
      Matched b b' f (readValue hasBraces p).2 (readValue hasBraces p').2 := by
  cases hrest : p.rest with
  | nil =>
    have hrest' := h.nil hb hrest
    simp only [readValue, hrest, hrest']
    exact ⟨rfl, h⟩
  | cons c cs =>
    obtain ⟨cs', hrest'⟩ := h.cons hb hrest
    simp only [readValue, hrest, hrest'] at hroom ⊢
    split
    · next hquote =>
      rw [if_pos hquote] at hroom
      obtain ⟨hvalue, hafter⟩ := readQuoted_matched hb h hroom
      exact ⟨congrArg some hvalue, hafter⟩
    · next hquote =>
      rw [if_neg hquote] at hroom
      split
      · next hbraces =>
        rw [if_pos hbraces] at hroom
        have hopen : p.rest.head? = some '\x7b' := by
          simp only [Bool.and_eq_true, beq_iff_eq] at hbraces
          rw [hrest, hbraces.1]
          rfl
        have hafter := h.pastBraces hb hopen hroom
        exact ⟨by simp [Value.map, Part.map, Span.map, h.pos, hafter.pos], hafter⟩
      · next hbraces =>
        rw [if_neg hbraces] at hroom
        obtain ⟨hafter, -⟩ := h.skip hb hroom
        exact ⟨by simp [Value.map, Part.map, Span.map, h.pos, hafter.pos], hafter⟩

structure HasValue (p : Point) : Prop where
  named : (p.rest.takeWhile (!endsName ·)).isEmpty = false
  equals : (p.skip (!endsName ·)).skipBlanks.sees ['='] = true

def Point.behindEquals (p : Point) : Point := (p.skip (!endsName ·)).skipBlanks.next.skipBlanks

theorem HasValue.readAttribute_eq (h : HasValue p) (hasBraces : Bool) : readAttribute hasBraces p =
    (⟨⟨p.pos, (p.skip (!endsName ·)).pos⟩, p.rest.takeWhile (!endsName ·),
        (readValue hasBraces p.behindEquals).1⟩,
      (readValue hasBraces p.behindEquals).2) := by
  unfold readAttribute
  dsimp only
  rw [h.named, h.equals, if_neg Bool.false_ne_true, if_pos rfl]
  rfl

theorem hasValue_of_mem {v : Value} (h : v ∈ (readAttribute hasBraces p).1.value) : HasValue p := by
  unfold readAttribute at h
  dsimp only at h
  split at h
  · cases h
  · next hname =>
    split at h
    · next hequals => exact ⟨Bool.eq_false_iff.mpr hname, hequals⟩
    · cases h

theorem Matched.behindName (hb : b'.head? = b.head?) (h : Matched b b' f p p')
    (hroom : b.length ≤ (p.skip (!endsName ·)).rest.length) :
    p'.rest.takeWhile (!endsName ·) = p.rest.takeWhile (!endsName ·) ∧
      (⟨p'.pos, (p'.skip (!endsName ·)).pos⟩ : Span) = Span.map f ⟨p.pos, (p.skip (!endsName ·)).pos⟩ := by
  obtain ⟨hname, htext⟩ := h.skip hb hroom
  exact ⟨htext, by rw [Span.map, h.pos, hname.pos]⟩

theorem Matched.behindEquals (hb : b'.head? = b.head?) (h : Matched b b' f p p') (hvalue : HasValue p)
    (hroom : b.length ≤ p.behindEquals.rest.length) :
    HasValue p' ∧ Matched b b' f p.behindEquals p'.behindEquals := by
  have hroom₁ := Nat.le_trans hroom (Point.leads_skip _ _).length_le
  have hroom₂ := Nat.le_trans hroom₁ (Point.leads_next _).length_le
  have hroom₃ := Nat.le_trans hroom₂ (Point.leads_skip _ _).length_le
  obtain ⟨hname, htext⟩ := h.skip hb hroom₃
  obtain ⟨hequals, -⟩ := hname.skip hb hroom₂
  obtain ⟨hstart, -⟩ := (hequals.next hb hroom₁).skip hb hroom
  have hsees : (p'.skip (!endsName ·)).skipBlanks.sees ['='] = (p.skip (!endsName ·)).skipBlanks.sees ['='] :=
    hequals.sees_eq hb '='
  exact ⟨⟨by rw [htext, hvalue.named], by rw [hsees, hvalue.equals]⟩, hstart⟩

theorem readAttribute_matched (hb : b'.head? = b.head?) (h : Matched b b' f p p')
    (hroom : b.length ≤ (readAttribute hasBraces p).2.rest.length) :
    (readAttribute hasBraces p').1 = (readAttribute hasBraces p).1.map f ∧
      Matched b b' f (readAttribute hasBraces p).2 (readAttribute hasBraces p').2 := by
  by_cases hvalue : HasValue p
  · rw [hvalue.readAttribute_eq] at hroom ⊢
    have hstart := Nat.le_trans hroom (readValue_leads hasBraces p.behindEquals).length_le
    obtain ⟨hvalue', hmatched⟩ := h.behindEquals hb hvalue hstart
    have hbehind : Leads (p.skip (!endsName ·)) p.behindEquals :=
      ((Point.leads_skip _ _).trans (Point.leads_next _)).trans (Point.leads_skip _ _)
    obtain ⟨htext, hspan⟩ := h.behindName hb (Nat.le_trans hstart hbehind.length_le)
    obtain ⟨hread, hafter⟩ := readValue_matched hb hmatched hroom
    rw [hvalue'.readAttribute_eq, htext, hspan, hread]
    exact ⟨rfl, hafter⟩
  · cases hempty : (p.rest.takeWhile (!endsName ·)).isEmpty with
    | true =>
      -- without a name nothing is skipped
      have hwhole : (p.skip (!endsName ·)).rest = p.rest := by
        have hall := List.takeWhile_append_dropWhile (p := (!endsName ·)) (l := p.rest)
        rwa [List.isEmpty_iff.mp hempty, List.nil_append] at hall
      unfold readAttribute at hroom ⊢
      dsimp only at hroom ⊢
      rw [hempty, if_pos rfl] at hroom
      have hroom₁ := Nat.le_trans hroom p.leads_next.length_le
      rw [← hwhole] at hroom₁
      obtain ⟨htext, hspan⟩ := h.behindName hb hroom₁
      rw [htext, hspan, hempty, if_pos rfl, if_pos rfl]
      exact ⟨rfl, h.next hb hroom⟩
    | false =>
      have hequals : (p.skip (!endsName ·)).skipBlanks.sees ['='] = false :=
        Bool.eq_false_iff.mpr fun hsees => hvalue ⟨hempty, hsees⟩
      unfold readAttribute at hroom ⊢
      dsimp only at hroom ⊢
      rw [hempty, hequals, if_neg Bool.false_ne_true, if_neg Bool.false_ne_true] at hroom
      have hroom₁ := Nat.le_trans hroom (Point.leads_skip _ _).length_le
      obtain ⟨htext, hspan⟩ := h.behindName hb hroom₁
      obtain ⟨hname, -⟩ := h.skip hb hroom₁
      obtain ⟨hblanks, -⟩ := hname.skip hb hroom
      have hsees : (p'.skip (!endsName ·)).skipBlanks.sees ['='] = false :=
        (hblanks.sees_eq hb '=').trans hequals
      rw [htext, hspan, hempty, hequals, hsees]
      exact ⟨rfl, hblanks⟩

end Markup

end ClassSort
