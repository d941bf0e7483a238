import ClassSort.Proofs.Script.Moved
import ClassSort.Proofs.Script.Spelling
import ClassSort.Proofs.Source.Inside

/-!
Where the nodes of a lowered script come from. Each literal, name and template is that of a tree, and its
ranges are those of the tree. So what the text of a tree is like, the text of its node is: the chunks of
a template reach from one delimiter to the next, and with the insides of the substitutions they cover it
without a gap.
-/

namespace ClassSort

/-- From a delimiter to the end of a template: chunks, each with the delimiters around it, and between
them the insides of the substitutions, each with its expression. Where there is none, the whole
substitution stands for it. -/
inductive Tiled (source : String) (stop : Nat) : String → Nat → List Chunk → List Node → Prop where
  | last {opening raw : String} {start : Nat} :
      slice? source ⟨start, stop⟩ = some (opening ++ raw ++ "`") →
      Tiled source stop opening start [⟨⟨start, stop⟩, raw⟩] []
  | next {opening raw : String} {start : Nat} (inside : Span) {e : Node} {chunks : List Chunk}
      {expressions : List Node} :
      slice? source ⟨start, inside.start⟩ = some (opening ++ raw ++ "$\x7b") →
      inside.start ≤ inside.stop →
      (e.span.Within inside ∨ 2 ≤ inside.start ∧ e = .other ⟨inside.start - 2, inside.stop + 1⟩) →
      Tiled source stop "\x7d" inside.stop chunks expressions →
      Tiled source stop opening start (⟨⟨start, inside.start⟩, raw⟩ :: chunks) (e :: expressions)

theorem Tiled.length {source opening : String} {start stop : Nat} {chunks : List Chunk}
    {expressions : List Node} (h : Tiled source stop opening start chunks expressions) :
    chunks.length = expressions.length + 1 := by
  induction h with
  | last => rfl
  | next _ _ _ _ _ ih => rw [List.length_cons, List.length_cons, ih]

def Node.Spelled (source : String) : Node → Prop
  | .literal s => ∃ quote body, (quote = "\"" ∨ quote = "'") ∧
    slice? source s = some (quote ++ body ++ quote)
  | .identifier s name => slice? source s = some name ∧ name.toList ≠ [] ∧ ∀ c ∈ name.toList, Script.IsPlain c
  | .template s chunks expressions => Tiled source s.stop "`" s.start chunks expressions
  | _ => True

namespace Script

open Script.Tree

inductive Tree.Among (trees : List Tree) : Tree → Prop where
  | here {t : Tree} : t ∈ trees → Tree.Among trees t
  | inside {t u : Tree} : Tree.Among trees t → u ∈ t.children → Tree.Among trees u

/-- A template literal as the grammar has it: it and its substitutions begin and end with their
delimiters, and what is substituted stands between them. -/
structure IsTemplate (text : List Char) (t : Tree) : Prop where
  form : t.form = .template
  nested : t.WellNested
  bracketed : Bracketed text t.span ['`'] ['`']
  substituted : ∀ u ∈ t.form.kept t.children, Bracketed text u.span ['$', '\x7b'] ['\x7d'] ∧
    ∀ v ∈ u.form.kept u.children, u.span.start + 2 ≤ v.span.start ∧ v.span.stop ≤ u.span.stop - 1

def Tree.Legible (text : List Char) (t : Tree) : Prop :=
  match t.form with
  | .string => ∃ quote, (quote = '"' ∨ quote = '\'') ∧ Bracketed text t.span [quote] [quote]
  | .identifier | .propertyName | .shorthand => ∃ name, sliceChars? text t.span = some name ∧
    name ≠ [] ∧ ∀ c ∈ name, IsPlain c
  | .template => IsTemplate text t
  | _ => True

theorem Tree.Legible.isTemplate {text : List Char} {t : Tree} (h : t.Legible text) (hform : t.form = .template) :
    IsTemplate text t := by
  rwa [Legible, hform] at h

def Readable (text : List Char) (trees : List Tree) : Prop := ∀ t, Tree.Among trees t → t.Legible text

def Stems (o : Origin) (A : Tree → Prop) : Node → Prop
  | .literal s => ∃ t, A t ∧ t.form = .string ∧ s = o.place t.span
  | .identifier s name => ∃ t, A t ∧ t.form.isName = true ∧ s = o.place t.span ∧ name = o.read t.span
  | .template s chunks expressions => ∃ t, A t ∧ t.form = .template ∧ s = o.place t.span ∧
    chunks = Script.chunks o t.span.stop t.span.start t.children ∧ expressions = substitutions o t.children
  | _ => True

variable {text : List Char} {s : Span} {t : Tree} {ts : List Tree} {o : Origin} {A : Tree → Prop}

theorem Tree.among_closed (trees : List Tree) : Closed (Tree.Among trees) := fun _ ht _ => ht.inside

theorem slice?_ofList (text : List Char) (s : Span) :
    slice? (String.ofList text) s = (sliceChars? text s).map String.ofList := by
  rw [slice?, String.toList_ofList]

/-! Ranges. -/

namespace Tree

theorem WellNestedFrom.weaken {a b c : Nat} (h : WellNestedFrom a b ts) (hc : c ≤ a) : WellNestedFrom c b ts := by
  cases ts with
  | nil =>
    rw [WellNestedFrom] at h ⊢
    exact Nat.le_trans hc h
  | cons t ts =>
    rw [WellNestedFrom] at h ⊢
    exact ⟨Nat.le_trans hc h.1, h.2⟩

mutual

theorem WellNested.plain : ∀ {t : Tree}, WellNested t → WellNested t.plain
  | node form s ts, h => by
    rw [WellNested] at h
    rw [Tree.plain, WellNested]
    exact ⟨h.1, h.2.plainAll form⟩

theorem WellNestedFrom.plainAll (form : Form) : ∀ {ts : List Tree} {a b : Nat},
    WellNestedFrom a b ts → WellNestedFrom a b (plainAll form ts)
  | [], _, _, h => h
  | t :: ts, a, b, h => by
    have hnested := h
    rw [WellNestedFrom] at h
    obtain ⟨hstart, ht, hrest⟩ := h
    rw [Tree.plainAll]
    split
    · rw [WellNestedFrom, plain_span]
      exact ⟨hstart, ht.plain, hrest.plainAll form⟩
    · obtain ⟨form', s, inside⟩ := t
      rw [WellNested] at ht
      exact (hrest.plainAll form).weaken (Nat.le_trans hstart ht.1)

end

end Tree

theorem invocation_span (o : Origin) (s : Span) (called : Callee) (ts : List Tree) :
    (invocation o s called ts).span = o.place s := by
  induction ts with
  | nil => rfl
  | cons t ts ih =>
    cases ts with
    | nil =>
      obtain ⟨form, span, inside⟩ := t
      cases form <;> rfl
    | cons u ts => simpa [invocation] using ih

/-- A tree is lowered to a node at its place, or to what stands between its parentheses. -/
theorem expression_within (o : Origin) : ∀ t : Tree, t.WellNested → (expression o t).span.Within (o.place t.span)
  | node form s ts, h => by
    have hsame {n : Node} (hn : n.span = o.place s) : n.span.Within (o.place s) :=
      hn ▸ ⟨Nat.le_refl _, Nat.le_refl _⟩
    unfold expression
    split
    case h_1 whole inner rest heq =>
      cases heq
      rw [WellNested, WellNestedFrom] at h
      obtain ⟨-, hstart, hinner, hrest⟩ := h
      have hwithin := expression_within o inner hinner
      exact ⟨Nat.le_trans (Nat.add_le_add_right hstart _) hwithin.1,
        Nat.le_trans hwithin.2 (Nat.add_le_add_right hrest.ordered _)⟩
    case h_10 heq =>
      cases heq
      exact hsame (invocation_span ..)
    all_goals
      rename_i heq
      cases heq
      exact hsame rfl

/-! Templates. -/

theorem chunks_length (o : Origin) (stop start : Nat) (ts : List Tree) :
    (chunks o stop start ts).length = (substitutions o ts).length + 1 := by
  induction ts generalizing start with
  | nil => simp [chunks, substitutions]
  | cons t ts ih =>
    obtain ⟨form, s, _ | ⟨inner, rest⟩⟩ := t <;> simp [chunks, substitutions, ih]

def Signed (text : List Char) (n : Nat) (sign : List Char) : Prop :=
  sliceChars? text ⟨n, n + byteLength sign⟩ = some sign

theorem signed_of_slice {opening inside closing : List Char}
    (h : sliceChars? text s = some (opening ++ inside ++ closing)) :
    Signed text s.start opening ∧ Signed text (s.start + byteLength opening + byteLength inside) closing ∧
      s.start + byteLength opening + byteLength inside + byteLength closing = s.stop := by
  obtain ⟨before, after, rfl, hstart, hstop⟩ := sliceChars?_eq_some.mp h
  simp only [byteLength_append] at hstop
  refine ⟨sliceChars?_eq_some.mpr ⟨before, inside ++ closing ++ after, by simp, hstart, rfl⟩, ?_, by omega⟩
  refine sliceChars?_eq_some.mpr ⟨before ++ opening ++ inside, after, by simp, ?_, rfl⟩
  simp only [byteLength_append, hstart]

theorem Signed.char_inj {n : Nat} {c d : Char} {cs ds : List Char} (hc : Signed text n (c :: cs))
    (hd : Signed text n (d :: ds)) : c = d := by
  obtain ⟨before, after, hsplit, hbefore, -⟩ := sliceChars?_eq_some.mp hc
  obtain ⟨before', after', hsplit', hbefore', -⟩ := sliceChars?_eq_some.mp hd
  rw [List.append_assoc] at hsplit hsplit'
  obtain ⟨-, hrest⟩ := append_inj_of_byteLength (hsplit.symm.trans hsplit') (hbefore.trans hbefore'.symm)
  exact (List.cons.inj hrest).1

/-- Of two signs the whole text between them can be read. -/
theorem Signed.between {start stop : Nat} {opening closing : List Char} (ho : Signed text start opening)
    (hc : Signed text stop closing) (hle : start + byteLength opening ≤ stop) :
    ∃ raw, sliceChars? text ⟨start, stop + byteLength closing⟩ = some (opening ++ raw ++ closing) := by
  obtain ⟨before, after, hsplit, hbefore, -⟩ := sliceChars?_eq_some.mp ho
  obtain ⟨front, back, hsplit', hfront, -⟩ := sliceChars?_eq_some.mp hc
  have hbegin : byteLength (before ++ opening) = start + byteLength opening := by
    rw [byteLength_append, hbefore]
  rw [List.append_assoc] at hsplit'
  have hwhole : before ++ opening ++ after = front ++ (closing ++ back) := hsplit.symm.trans hsplit'
  obtain ⟨raw, rfl, -⟩ := append_cut hwhole (by rw [hbegin, hfront]; exact hle)
  refine ⟨raw, sliceChars?_eq_some.mpr ⟨before, back, by simp [hsplit'], hbefore, ?_⟩⟩
  simp only [byteLength_append] at hfront ⊢
  dsimp only at hfront hbefore
  omega

/-- A chunk's text is what stands between its delimiters. -/
theorem chunk_eq {opening : Char} {raw closing : List Char} {start stop rawStop : Nat}
    (h : sliceChars? text ⟨start, stop⟩ = some (opening :: raw ++ closing))
    (hopening : opening.utf8Size = 1) (hstop : stop = rawStop + byteLength closing) :
    Origin.chunk ⟨text, 0⟩ start stop rawStop = ⟨⟨start, stop⟩, String.ofList raw⟩ := by
  subst hstop
  have hraw : sliceChars? text ⟨start + 1, rawStop⟩ = some raw := by
    have hbetween : sliceChars? text ⟨start + byteLength [opening], rawStop⟩ = some raw :=
      sliceChars?_between h
    simpa only [byteLength, hopening, Nat.add_zero] using hbetween
  rw [Origin.chunk, Origin.place, Span.shift_zero, Origin.read, hraw, Option.getD_some]

theorem slice?_delimited {opening : Char} {raw closing : List Char}
    (h : sliceChars? text s = some (opening :: raw ++ closing)) : slice? (String.ofList text) s =
      some (String.ofList [opening] ++ String.ofList raw ++ String.ofList closing) := by
  rw [slice?_ofList, h, ← String.ofList_append, ← String.ofList_append]
  rfl

/-- The substitutions of a template, each between its delimiters, leave it its chunks. -/
theorem substitutions_tiled {stop start : Nat} {opening : Char} (hnested : WellNestedFrom (start + 1) (stop + 1) ts)
    (hsign : Signed text start [opening]) (hopening : opening.utf8Size = 1)
    (hend : Signed text stop ['`']) (hroom : ts = [] → start + 1 ≤ stop)
    (hts : ∀ u ∈ ts, Bracketed text u.span ['$', '\x7b'] ['\x7d'] ∧
      ∀ v ∈ u.form.kept u.children, u.span.start + 2 ≤ v.span.start ∧ v.span.stop ≤ u.span.stop - 1) :
    Tiled (String.ofList text) (stop + 1) (String.ofList [opening]) start
      (chunks ⟨text, 0⟩ (stop + 1) start ts) (substitutions ⟨text, 0⟩ (ts.map plain)) := by
  have hsize : byteLength [opening] = 1 := by rw [byteLength, hopening, byteLength]
  induction ts generalizing start opening with
  | nil =>
    obtain ⟨raw, hslice⟩ := hsign.between hend (by rw [hsize]; exact hroom rfl)
    have hslice : sliceChars? text ⟨start, stop + 1⟩ = some (opening :: raw ++ ['`']) := hslice
    rw [List.map_nil, chunks, substitutions, Nat.add_sub_cancel, chunk_eq hslice hopening (show stop + 1 = stop + byteLength ['`'] from rfl)]
    exact .last (slice?_delimited hslice)
  | cons u us ih =>
    rw [WellNestedFrom] at hnested
    obtain ⟨hstart, hu, hrest⟩ := hnested
    obtain ⟨⟨⟨inside, hbracketed⟩, hbetween⟩, hothers⟩ := List.forall_mem_cons.mp hts
    obtain ⟨hfront, hback, hstop⟩ := signed_of_slice hbracketed
    have hwidth : u.span.start + 3 ≤ u.span.stop := by
      rw [← hstop]
      simp only [show byteLength ['$', '\x7b'] = 2 from rfl, show byteLength ['\x7d'] = 1 from rfl]
      omega
    have hclose : u.span.stop - 1 + 1 = u.span.stop := Nat.sub_add_cancel (by omega)
    have hbrace : Signed text (u.span.stop - 1) ['\x7d'] := by
      rwa [← hstop, show byteLength ['\x7d'] = 1 from rfl, Nat.add_sub_cancel]
    have hroom : us = [] → u.span.stop - 1 + 1 ≤ stop := by
      -- the brace behind the substitution is not the backtick behind the template
      rintro rfl
      rw [WellNestedFrom] at hrest
      rw [hclose]
      rcases Nat.lt_or_ge stop u.span.stop with hlt | hle
      · obtain rfl : stop = u.span.stop - 1 := by omega
        exact absurd (hbrace.char_inj hend) (by decide)
      · exact hle
    rw [← hclose] at hrest
    have htiled := ih hrest hbrace rfl hroom hothers rfl
    obtain ⟨raw, hslice⟩ := hsign.between hfront (by rw [hsize]; exact hstart)
    obtain ⟨form, s, children⟩ := u
    have hslice : sliceChars? text ⟨start, s.start + 2⟩ = some (opening :: raw ++ ['$', '\x7b']) := hslice
    have hchunk := chunk_eq hslice hopening (show s.start + 2 = s.start + byteLength ['$', '\x7b'] from rfl)
    rw [List.map_cons, chunks, Tree.plain, Tree.span, hchunk]
    simp only [Tree.span] at hwidth hclose htiled
    rcases hplain : plainAll form children with _ | ⟨v, vs⟩
    · rw [substitutions]
      refine .next ⟨s.start + 2, s.stop - 1⟩ (slice?_delimited hslice) (by dsimp only; omega) (.inr ⟨by simp, ?_⟩) htiled
      simp only [Origin.place, Span.shift_zero, Node.other.injEq]
      rw [Nat.add_sub_cancel, hclose]
    · rw [substitutions]
      refine .next ⟨s.start + 2, s.stop - 1⟩ (slice?_delimited hslice) (by dsimp only; omega) (.inl ?_) htiled
      have hnested : WellNestedFrom s.start s.stop (v :: vs) := by
        rw [WellNested] at hu
        exact hplain ▸ hu.2.plainAll form
      rw [WellNestedFrom] at hnested
      have hwithin := expression_within ⟨text, 0⟩ v hnested.2.1
      rw [plainAll_eq] at hplain
      obtain ⟨w, ws, hkept, rfl, -⟩ := List.map_eq_cons_iff.mp hplain
      obtain ⟨hbehind, hahead⟩ := hbetween w (by simp only [Tree.form, Tree.children, hkept]; exact List.mem_cons_self)
      rw [plain_span] at hwithin
      exact ⟨Nat.le_trans hbehind hwithin.1, Nat.le_trans hwithin.2 hahead⟩

theorem Tree.WellNestedFrom.kept {a b : Nat} (form : Form) (h : WellNestedFrom a b ts) :
    WellNestedFrom a b (form.kept ts) := by
  induction ts generalizing a with
  | nil => exact h
  | cons t ts ih =>
    rw [WellNestedFrom] at h
    obtain ⟨hstart, ht, hrest⟩ := h
    rw [Form.kept, List.filter_cons]
    split
    · rw [WellNestedFrom]
      exact ⟨hstart, ht, ih hrest⟩
    · obtain ⟨form', s, inside⟩ := t
      rw [WellNested] at ht
      exact (ih hrest).weaken (Nat.le_trans hstart ht.1)

/-- The chunks and the expressions that a template literal is lowered to. -/
theorem IsTemplate.tiled (h : IsTemplate text t) : Tiled (String.ofList text) t.span.stop "`" t.span.start
    (chunks ⟨text, 0⟩ t.span.stop t.span.start t.plain.children)
    (substitutions ⟨text, 0⟩ t.plain.children) := by
  obtain ⟨inside, hslice⟩ := h.bracketed
  obtain ⟨hopening, hclosing, hstop⟩ := signed_of_slice hslice
  simp only [show byteLength ['`'] = 1 from rfl] at hclosing hstop
  have hnested : WellNestedFrom t.span.start t.span.stop (t.form.kept t.children) := by
    have hnested := h.nested
    obtain ⟨form, s, children⟩ := t
    rw [WellNested] at hnested
    exact hnested.2.kept form
  have hbehind : WellNestedFrom (t.span.start + 1) t.span.stop (t.form.kept t.children) := by
    -- no substitution begins at the backtick
    cases hkept : t.form.kept t.children with
    | nil =>
      rw [WellNestedFrom]
      omega
    | cons u us =>
      obtain ⟨⟨inside, hu⟩, -⟩ := h.substituted u (by rw [hkept]; exact List.mem_cons_self)
      obtain ⟨hdollar, -⟩ := signed_of_slice hu
      rw [hkept, WellNestedFrom] at hnested
      rw [WellNestedFrom]
      refine ⟨Nat.lt_of_le_of_ne hnested.1 fun heq => ?_, hnested.2⟩
      rw [← heq] at hdollar
      exact absurd (hopening.char_inj hdollar) (by decide)
  rw [plain_children, chunks_map_plain]
  rw [← hstop] at hbehind ⊢
  exact substitutions_tiled hbehind hopening rfl hclosing (fun _ => by omega) h.substituted

/-! Whatever a tree is lowered to. -/

section

variable {n : Node} {form : Form}

def Stemming (o : Origin) (A : Tree → Prop) (n : Node) : Prop := ∀ m ∈ n.inside, Stems o A m

theorem stemming_other (s : Span) : Stemming o A (.other s) := by
  simp [Stemming, Node.inside, Node.descendants, Stems]

theorem Stemming.of (hn : Stems o A n) (h : ∀ m ∈ n.descendants, Stems o A m) : Stemming o A n :=
  List.forall_mem_cons.mpr ⟨hn, h⟩

theorem stemming_identifier (ht : A (node form s ts)) (hform : form.isName = true) :
    Stemming o A (.identifier (o.place s) (o.read s)) :=
  .of ⟨_, ht, hform, rfl, rfl⟩ (by simp [Node.descendants])

theorem stemming_literal (ht : A (node .string s ts)) : Stemming o A (.literal (o.place s)) :=
  .of ⟨_, ht, rfl, rfl⟩ (by simp [Node.descendants])

theorem stemming_template (ht : A (node .template s ts))
    (hts : ∀ m ∈ Node.allInside (substitutions o ts), Stems o A m) :
    Stemming o A (.template (o.place s) (chunks o s.stop s.start ts) (substitutions o ts)) :=
  .of ⟨_, ht, rfl, rfl, rfl, rfl⟩ (by rwa [Node.descendants])

end

mutual

theorem expression_stems (hA : Closed A) : ∀ t : Tree, A t → Stemming o A (expression o t)
  | node form s ts, ht => by
    have hts := hA _ ht
    have hother : Stemming o A (.other (o.place s)) := stemming_other _
    cases form with
    | grouping =>
      cases ts with
      | nil => exact hother
      | cons inner rest =>
        simp only [expression]
        exact expression_stems hA inner (hts inner List.mem_cons_self)
    | string =>
      simp only [expression]
      exact stemming_literal ht
    | identifier =>
      simp only [expression]
      exact stemming_identifier ht rfl
    | array =>
      simp only [expression]
      exact .of trivial (by rw [Node.descendants]; exact expressions_stems hA ts hts)
    | object =>
      simp only [expression]
      exact .of trivial (by rw [Node.descendants]; exact properties_stems hA ts hts)
    | template =>
      simp only [expression]
      exact stemming_template ht (substitutions_stems hA ts hts)
    | binary | logical =>
      rcases ts with _ | ⟨left, _ | ⟨right, _ | ⟨third, rest⟩⟩⟩
      · exact hother
      · simpa [expression] using hother
      · have hleft := expression_stems hA left (hts _ List.mem_cons_self)
        have hright := expression_stems hA right (hts _ (List.mem_cons_of_mem _ List.mem_cons_self))
        simp only [expression]
        exact .of trivial (by rw [Node.descendants]; exact List.forall_mem_append.mpr ⟨hleft, hright⟩)
      · simpa [expression] using hother
    | conditional =>
      rcases ts with _ | ⟨test, _ | ⟨consequent, _ | ⟨alternate, _ | ⟨fourth, rest⟩⟩⟩⟩
      · exact hother
      · simpa [expression] using hother
      · simpa [expression] using hother
      · have htest := expression_stems hA test (hts _ (by simp [Tree.children]))
        have hconsequent := expression_stems hA consequent (hts _ (by simp [Tree.children]))
        have halternate := expression_stems hA alternate (hts _ (by simp [Tree.children]))
        simp only [expression]
        refine .of trivial ?_
        rw [Node.descendants]
        exact List.forall_mem_append.mpr ⟨List.forall_mem_append.mpr ⟨htest, hconsequent⟩, halternate⟩
      · simpa [expression] using hother
    | call =>
      cases ts with
      | nil => exact hother
      | cons called rest =>
        simp only [expression]
        exact invocation_stems hA rest fun t ht => hts t (List.mem_cons_of_mem _ ht)
    | declarator initialized =>
      cases ts with
      | nil => exact hother
      | cons name rest =>
        have hlast := lastExpression_stems hA rest fun t ht => hts t (List.mem_cons_of_mem _ ht)
        simp only [expression]
        cases initialized with
        | false => exact .of trivial (by simp [Node.descendants])
        | true =>
          cases hinit : lastExpression o rest with
          | none => exact .of trivial (by simp [Node.descendants])
          | some init =>
            refine .of trivial ?_
            rw [if_pos rfl, Node.descendants]
            exact hlast init hinit
    | _ => exact hother

theorem expressions_stems (hA : Closed A) : ∀ ts : List Tree, (∀ t ∈ ts, A t) →
    ∀ m ∈ Node.allInside (expressions o ts), Stems o A m
  | [], _ => by simp [expressions, Node.allInside]
  | t :: ts, hts => by
    obtain ⟨ht, hrest⟩ := List.forall_mem_cons.mp hts
    rw [expressions, Node.allInside]
    exact List.forall_mem_append.mpr ⟨expression_stems hA t ht, expressions_stems hA ts hrest⟩

theorem lastExpression_stems (hA : Closed A) : ∀ ts : List Tree, (∀ t ∈ ts, A t) →
    ∀ n ∈ lastExpression o ts, Stemming o A n
  | [], _ => by simp [lastExpression]
  | [t], hts => by
    rintro n ⟨⟩
    exact expression_stems hA t (hts t List.mem_cons_self)
  | _ :: u :: ts, hts => by
    have hrest := lastExpression_stems hA (u :: ts) (List.forall_mem_cons.mp hts).2
    simpa only [lastExpression] using hrest

theorem invocation_stems (hA : Closed A) {s : Span} {called : Callee} : ∀ ts : List Tree, (∀ t ∈ ts, A t) →
    Stemming o A (invocation o s called ts)
  | [], _ => by
    rw [invocation]
    exact stemming_other _
  | [node form span inside], hts => by
    have ht := hts _ List.mem_cons_self
    by_cases hform : form = .template
    · subst hform
      have htemplate := stemming_template ht (substitutions_stems hA inside (hA _ ht))
      rw [invocation]
      exact .of trivial (by rw [Node.descendants]; exact htemplate)
    · have harguments := expressions_stems hA inside (hA _ ht)
      rw [invocation]
      · exact .of trivial (by rw [Node.descendants]; exact harguments)
      · exact fun h => hform h
  | _ :: u :: ts, hts => by
    have hrest : Stemming o A (invocation o s called (u :: ts)) :=
      invocation_stems hA (u :: ts) (List.forall_mem_cons.mp hts).2
    simpa [invocation] using hrest

theorem substitutions_stems (hA : Closed A) : ∀ ts : List Tree, (∀ t ∈ ts, A t) →
    ∀ m ∈ Node.allInside (substitutions o ts), Stems o A m
  | [], _ => by simp [substitutions, Node.allInside]
  | node _ _ (inner :: _) :: ts, hts => by
    obtain ⟨ht, hrest⟩ := List.forall_mem_cons.mp hts
    rw [substitutions, Node.allInside]
    exact List.forall_mem_append.mpr
      ⟨expression_stems hA inner (hA _ ht _ List.mem_cons_self), substitutions_stems hA ts hrest⟩
  | node _ s [] :: ts, hts => by
    rw [substitutions, Node.allInside]
    exact List.forall_mem_append.mpr
      ⟨stemming_other _, substitutions_stems hA ts (List.forall_mem_cons.mp hts).2⟩

theorem properties_stems (hA : Closed A) : ∀ ts : List Tree, (∀ t ∈ ts, A t) →
    ∀ m ∈ Property.allInside (properties o ts), Stems o A m
  | [], _ => by simp [properties, Property.allInside]
  | node form s inside :: ts, hts => by
    obtain ⟨ht, hrest⟩ := List.forall_mem_cons.mp hts
    have hrest := properties_stems hA ts hrest
    have hentry {key value : Node} (hkey : Stemming o A key) (hvalue : Stemming o A value) :
        ∀ m ∈ Property.allInside (.entry key value :: properties o ts),
          Stems o A m := by
      rw [Property.allInside]
      exact List.forall_mem_append.mpr ⟨List.forall_mem_append.mpr ⟨hkey, hvalue⟩, hrest⟩
    cases form with
    | pair =>
      rcases inside with _ | ⟨name, _ | ⟨value, _ | ⟨third, rest⟩⟩⟩
      · simpa [properties] using hrest
      · simpa [properties] using hrest
      · simp only [properties]
        exact hentry (key_stems hA name (hA _ ht _ (by simp [Tree.children])))
          (expression_stems hA value (hA _ ht _ (by simp [Tree.children])))
      · simpa [properties] using hrest
    | shorthand =>
      simp only [properties]
      exact hentry (stemming_identifier ht rfl) (stemming_identifier ht rfl)
    | method =>
      cases inside with
      | nil => simpa [properties] using hrest
      | cons name rest =>
        simp only [properties]
        exact hentry (key_stems hA name (hA _ ht _ (by simp [Tree.children]))) (stemming_other _)
    | spread =>
      simp only [properties]
      rwa [Property.allInside]
    | _ => simpa [properties] using hrest

theorem key_stems (hA : Closed A) : ∀ t : Tree, A t → Stemming o A (key o t)
  | node form s ts, ht => by
    have hother : Stemming o A (.other (o.place s)) := stemming_other _
    cases form with
    | propertyName => exact stemming_identifier ht rfl
    | string => exact stemming_literal ht
    | computed =>
      cases ts with
      | nil => exact hother
      | cons inner rest =>
        simp only [key]
        exact expression_stems hA inner (hA _ ht inner List.mem_cons_self)
    | _ => exact hother

end

mutual

theorem treeRoots_stems (hA : Closed A) : ∀ t : Tree, A t → ∀ root ∈ treeRoots o t, Stemming o (Plains A) root
  | node form s ts, ht => by
    rw [treeRoots]
    refine List.forall_mem_append.mpr ⟨?_, forestRoots_stems hA ts (hA _ ht)⟩
    split
    · exact List.forall_mem_singleton.mpr (expression_stems hA.plains _ ⟨_, ht, rfl⟩)
    · simp

theorem forestRoots_stems (hA : Closed A) : ∀ ts : List Tree, (∀ t ∈ ts, A t) →
    ∀ root ∈ forestRoots o ts, Stemming o (Plains A) root
  | [], _ => by simp [forestRoots]
  | t :: ts, hts => by
    obtain ⟨ht, hrest⟩ := List.forall_mem_cons.mp hts
    rw [forestRoots]
    exact List.forall_mem_append.mpr ⟨treeRoots_stems hA t ht, forestRoots_stems hA ts hrest⟩

end

theorem soleExpression_stems (hA : Closed A) (hts : ∀ t ∈ ts, A t) :
    ∀ e ∈ soleExpression o ts, Stemming o (Plains A) e := by
  unfold soleExpression
  rw [plainAll_eq]
  intro e he
  split at he
  · next s e' es rest hplain =>
    cases he
    obtain ⟨t, us, hkept, ht, -⟩ := List.map_eq_cons_iff.mp hplain
    have hmem : t ∈ ts := (Form.kept_sublist _ ts).subset (by rw [hkept]; exact List.mem_cons_self)
    have hplains : Plains A (node .expressionStatement s (e' :: es)) := ⟨t, hts t hmem, ht⟩
    exact expression_stems hA.plains _ (hA.plains _ hplains e' List.mem_cons_self)
  · cases he

/-! What is known of the trees is known of the nodes. -/

theorem Stems.spelled {trees : List Tree} {n : Node}
    (hn : Stems ⟨text, 0⟩ (Plains (Among trees)) n) (h : Readable text trees) :
    n.Spelled (String.ofList text) := by
  cases n with
  | literal s =>
    obtain ⟨_, ⟨t, ht, rfl⟩, hform, rfl⟩ := hn
    have hlegible := h t ht
    rw [plain_form] at hform
    rw [Legible, hform] at hlegible
    obtain ⟨quote, hquote, body, hslice⟩ := hlegible
    refine ⟨String.ofList [quote], String.ofList body, ?_, ?_⟩
    · rcases hquote with rfl | rfl
      · exact .inl rfl
      · exact .inr rfl
    · rw [plain_span, Origin.place, Span.shift_zero]
      exact slice?_delimited hslice
  | identifier s name =>
    obtain ⟨_, ⟨t, ht, rfl⟩, hform, rfl, rfl⟩ := hn
    have hlegible := h t ht
    rw [plain_form] at hform
    have hname : ∃ name, sliceChars? text t.span = some name ∧ name ≠ [] ∧ ∀ c ∈ name, IsPlain c := by
      rw [Legible] at hlegible
      revert hlegible hform
      cases t.form <;> simp [Form.isName]
    obtain ⟨name, hslice, hnone, hplain⟩ := hname
    rw [plain_span, Origin.place, Span.shift_zero, Origin.read, hslice, Option.getD_some]
    refine ⟨?_, ?_⟩
    · rw [slice?_ofList, hslice]
      rfl
    · rw [String.toList_ofList]
      exact ⟨hnone, hplain⟩
  | template s chunks expressions =>
    obtain ⟨_, ⟨t, ht, rfl⟩, hform, rfl, rfl, rfl⟩ := hn
    rw [plain_form] at hform
    rw [plain_span, Origin.place, Span.shift_zero]
    exact ((h t ht).isTemplate hform).tiled
  | _ => trivial

end Script

end ClassSort
