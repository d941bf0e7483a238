import ClassSort.Proofs.Markup.Braced
import Mathlib.Data.List.Induction

/-!
What may stand in an expression in braces, as the language writes it: code, in which braces are
balanced, strings, templates and comments. A scan knows of no substitutions: it takes a template for a
string that ends at its next backtick. So it finds the closing brace of an expression exactly if the
expression can be read in this way, too, and that is so if no substitution holds a backtick.
-/

namespace ClassSort.Markup

inductive StringBody (quote : Char) : List Char → Prop where
  | nil : StringBody quote []
  | escaped (c : Char) {body : List Char} (rest : StringBody quote body) :
      StringBody quote ('\\' :: c :: body)
  | plain {c : Char} {body : List Char} (hquote : c ≠ quote) (hescape : c ≠ '\\')
      (rest : StringBody quote body) : StringBody quote (c :: body)

instance StringBody.decidable (quote : Char) : (body : List Char) → Decidable (StringBody quote body)
  | [] => isTrue .nil
  | c :: body =>
    if hescape : c = '\\' then
      match body with
      | [] => isFalse fun h => by
          cases h with
          | plain _ h _ => exact h hescape
      | d :: body =>
        have := StringBody.decidable quote body
        decidable_of_iff (StringBody quote body) ⟨fun rest => hescape ▸ .escaped d rest, fun h => by
          cases h with
          | escaped _ rest => exact rest
          | plain _ h _ => exact absurd hescape h⟩
    else
      have := StringBody.decidable quote body
      decidable_of_iff (c ≠ quote ∧ StringBody quote body)
        ⟨fun ⟨hquote, rest⟩ => .plain hquote hescape rest, fun h => by
          cases h with
          | escaped => exact absurd rfl hescape
          | plain hquote _ rest => exact ⟨hquote, rest⟩⟩

inductive TemplateBody (Substitution : List Char → Prop) : List Char → Prop where
  | nil : TemplateBody Substitution []
  | escaped (c : Char) {body : List Char} (rest : TemplateBody Substitution body) :
      TemplateBody Substitution ('\\' :: c :: body)
  | plain {c : Char} {body : List Char} (hquote : c ≠ '`') (hescape : c ≠ '\\')
      (hopens : c = '$' → body.head? ≠ some '\x7b') (rest : TemplateBody Substitution body) :
      TemplateBody Substitution (c :: body)
  | substituted {inside body : List Char} (h : Substitution inside)
      (rest : TemplateBody Substitution body) :
      TemplateBody Substitution ('$' :: '\x7b' :: (inside ++ '\x7d' :: body))

def IsPlain (c : Char) : Prop := c ∉ ['\x7b', '\x7d', '"', '\'', '`', '/']

instance (c : Char) : Decidable (IsPlain c) := inferInstanceAs (Decidable (c ∉ _))

inductive Code (Literal : List Char → Prop) : List Char → Prop where
  | nil : Code Literal []
  | plain {c : Char} {cs : List Char} (hc : IsPlain c) (rest : Code Literal cs) : Code Literal (c :: cs)
  /-- A slash that begins no comment. -/
  | slash {cs : List Char} (hnext : ∀ c ∈ cs.head?, c ≠ '/' ∧ c ≠ '*') (rest : Code Literal cs) :
      Code Literal ('/' :: cs)
  | group {inside cs : List Char} (h : Code Literal inside) (rest : Code Literal cs) :
      Code Literal ('\x7b' :: (inside ++ '\x7d' :: cs))
  | literal {text cs : List Char} (h : Literal text) (rest : Code Literal cs) : Code Literal (text ++ cs)
  | lineComment {body cs : List Char} (h : '\n' ∉ body) (rest : Code Literal cs) :
      Code Literal ('/' :: '/' :: (body ++ '\n' :: cs))
  | blockComment {body cs : List Char} (h : ¬ ['*', '/'] <:+: body) (rest : Code Literal cs) :
      Code Literal ('/' :: '*' :: (body ++ '*' :: '/' :: cs))

def IsString (quotes text : List Char) : Prop :=
  ∃ quote ∈ quotes, ∃ body, StringBody quote body ∧ text = quote :: (body ++ [quote])

def IsTemplate (Substitution : List Char → Prop) (text : List Char) : Prop :=
  ∃ body, TemplateBody Substitution body ∧ text = '`' :: (body ++ ['`'])

def IsLiteral : Nat → List Char → Prop
  | 0, text => IsString ['"', '\''] text
  | depth + 1, text => IsString ['"', '\''] text ∨ IsTemplate (Code (IsLiteral depth)) text

def IsExpression (cs : List Char) : Prop := ∃ depth, Code (IsLiteral depth) cs

/-- An expression in whose templates no substitution holds a backtick, and so no template. -/
def IsShallow (cs : List Char) : Prop :=
  Code (fun text => IsLiteral 0 text ∨
    IsTemplate (fun inside => Code (IsLiteral 0) inside ∧ '`' ∉ inside) text) cs

/-- Code in which a backtick is a quote like the two others. -/
def IsFlat (cs : List Char) : Prop := Code (IsString ['"', '\'', '`']) cs

/-- Wherever the expression stands, and whatever stands behind it, a scan goes on right behind its
closing brace. -/
def EndsAtBrace (cs : List Char) : Prop :=
  ∀ rest n, Point.pastBraces ⟨'\x7b' :: (cs ++ '\x7d' :: rest), n⟩ = ⟨rest, n + (byteLength cs + 2)⟩

variable {Literal Other : List Char → Prop} {cs rest text body : List Char} {quote : Char}
  {inside : Inside} {depth n : Nat}

theorem Code.mono (h : Code Literal cs) (hliteral : ∀ text, Literal text → Other text) : Code Other cs := by
  induction h with
  | nil => exact .nil
  | plain hc _ ih => exact .plain hc ih
  | slash hnext _ ih => exact .slash hnext ih
  | group _ _ ihinside ih => exact .group ihinside ih
  | literal h _ ih => exact .literal (hliteral _ h) ih
  | lineComment h _ ih => exact .lineComment h ih
  | blockComment h _ ih => exact .blockComment h ih

theorem Code.chars (h : Code Literal cs) (front : List Char) (hfront : ∀ c ∈ front, IsPlain c) :
    Code Literal (front ++ cs) := by
  induction front with
  | nil => exact h
  | cons c front ih =>
    obtain ⟨hc, hfront⟩ := List.forall_mem_cons.mp hfront
    exact .plain hc (ih hfront)

theorem TemplateBody.mono (h : TemplateBody Literal body) (hsub : ∀ text, Literal text → Other text) :
    TemplateBody Other body := by
  induction h with
  | nil => exact .nil
  | escaped c _ ih => exact .escaped c ih
  | plain hquote hescape hopens _ ih => exact .plain hquote hescape hopens ih
  | substituted h _ ih => exact .substituted (hsub _ h) ih

theorem IsShallow.expression (h : IsShallow cs) : IsExpression cs := by
  refine ⟨1, Code.mono h fun text htext => ?_⟩
  rcases htext with hstring | ⟨body, hbody, rfl⟩
  · exact .inl hstring
  · exact .inr ⟨body, hbody.mono fun _ hinside => hinside.1, rfl⟩

/-! What a scan passes. -/

theorem closeFrom_plain (hc : IsPlain (c : Char)) : closeFrom .code depth (c :: cs) n =
    closeFrom .code depth cs (n + c.utf8Size) := by
  simp only [IsPlain, List.mem_cons, List.not_mem_nil, or_false, not_or] at hc
  obtain ⟨hopen, hclose, hdouble, hsingle, hback, hslash⟩ := hc
  rw [closeFrom]
  · simp [hdouble, hsingle, hback]
  · exact fun _ h => absurd h hslash
  · exact fun _ h => absurd h hslash
  · exact hopen
  · exact hclose

theorem closeFrom_slash (hnext : ∀ c ∈ cs.head?, c ≠ '/' ∧ c ≠ '*') :
    closeFrom .code depth ('/' :: cs) n = closeFrom .code depth cs (n + 1) := by
  rw [closeFrom]
  · rfl
  · rintro cs - rfl
    exact (hnext '/' rfl).1 rfl
  · rintro cs - rfl
    exact (hnext '*' rfl).2 rfl
  · decide
  · decide

theorem closeFrom_string (hquote : quote ≠ '\\') (h : StringBody quote body) (cs : List Char) (n : Nat) :
    closeFrom (.string quote) depth (body ++ quote :: cs) n =
      closeFrom .code depth cs (n + (byteLength body + quote.utf8Size)) := by
  induction h generalizing n with
  | nil =>
    rw [List.nil_append, closeFrom]
    · simp [byteLength]
    · exact fun _ _ h _ => absurd h hquote
  | escaped c _ ih =>
    have hsize : '\\'.utf8Size = 1 := rfl
    rw [List.cons_append, List.cons_append, closeFrom, ih]
    simp only [byteLength, hsize, Nat.add_assoc]
  | plain hend hescape _ ih =>
    rw [List.cons_append, closeFrom]
    · rw [if_neg (by simpa using hend), ih]
      simp only [byteLength, Nat.add_assoc]
    · exact fun _ _ h _ => absurd h hescape

theorem closeFrom_lineComment (h : '\n' ∉ body) (cs : List Char) (n : Nat) :
    closeFrom .lineComment depth (body ++ '\n' :: cs) n =
      closeFrom .code depth cs (n + (byteLength body + 1)) := by
  induction body generalizing n with
  | nil =>
    rw [List.nil_append, closeFrom, if_pos (beq_self_eq_true _)]
    rfl
  | cons c body ih =>
    obtain ⟨hc, hbody⟩ := not_or.mp (mt List.mem_cons.mpr h)
    rw [List.cons_append, closeFrom, if_neg (by simpa using Ne.symm hc), ih hbody]
    simp only [byteLength, Nat.add_assoc]

theorem closeFrom_blockComment (h : ¬ ['*', '/'] <:+: body) (cs : List Char) (n : Nat) :
    closeFrom .blockComment depth (body ++ '*' :: '/' :: cs) n =
      closeFrom .code depth cs (n + (byteLength body + 2)) := by
  induction body generalizing n with
  | nil => simp [closeFrom, byteLength]
  | cons c body ih =>
    have hbody : ¬ ['*', '/'] <:+: body := fun hin => h (List.infix_cons hin)
    rw [List.cons_append, closeFrom, ih hbody]
    · simp only [byteLength, Nat.add_assoc]
    · -- the comment does not end before its mark
      rintro more rfl hmore
      cases body with
      | nil => simp at hmore
      | cons d body =>
        obtain ⟨rfl, -⟩ := List.cons.inj hmore
        exact h ⟨[], body, rfl⟩

theorem closeFrom_isString (h : IsString ['"', '\'', '`'] text) (cs : List Char) (n : Nat) :
    closeFrom .code depth (text ++ cs) n = closeFrom .code depth cs (n + byteLength text) := by
  obtain ⟨quote, hquote, body, hbody, rfl⟩ := h
  have hopens (rest : List Char) : closeFrom .code depth (quote :: rest) n =
      closeFrom (.string quote) depth rest (n + quote.utf8Size) := by
    simp only [List.mem_cons, List.not_mem_nil, or_false] at hquote
    rcases hquote with rfl | rfl | rfl <;> simp [closeFrom]
  have hslash : quote ≠ '\\' := by
    rintro rfl
    simp at hquote
  rw [List.cons_append, List.append_assoc, hopens, List.singleton_append, closeFrom_string hslash hbody]
  simp only [byteLength, byteLength_append, Nat.add_assoc, Nat.add_zero]

/-- Flat code is passed as a whole. What stands behind it ends an expression. -/
theorem IsFlat.passed (h : IsFlat cs) (hrest : rest.head? = some '\x7d') (n : Nat) :
    closeFrom .code (depth + 1) (cs ++ rest) n = closeFrom .code (depth + 1) rest (n + byteLength cs) := by
  induction h generalizing depth rest n with
  | nil => rfl
  | plain hc _ ih =>
    rw [List.cons_append, closeFrom_plain hc, ih hrest]
    simp only [byteLength, Nat.add_assoc]
  | @slash cs hnext _ ih =>
    have hbehind : ∀ c ∈ (cs ++ rest).head?, c ≠ '/' ∧ c ≠ '*' := by
      intro c hc
      cases cs with
      | nil =>
        rw [List.nil_append, hrest] at hc
        cases hc
        decide
      | cons d cs => exact hnext c hc
    rw [List.cons_append, closeFrom_slash hbehind, ih hrest]
    simp only [byteLength, Nat.add_assoc]
    rfl
  | @group inside cs _ _ ihinside ih =>
    have hinside : ('\x7d' :: (cs ++ rest)).head? = some '\x7d' := rfl
    rw [List.cons_append, List.append_assoc, List.cons_append, closeFrom, ihinside hinside, closeFrom,
      if_neg (by omega), Nat.add_sub_cancel, ih hrest]
    have hopen : '\x7b'.utf8Size = 1 := rfl
    have hclose : '\x7d'.utf8Size = 1 := rfl
    simp only [byteLength, byteLength_append, hopen, hclose, Nat.add_assoc]
  | literal h _ ih =>
    rw [List.append_assoc, closeFrom_isString h, ih hrest, byteLength_append, Nat.add_assoc]
  | lineComment h _ ih =>
    simp only [List.cons_append, List.append_assoc]
    rw [closeFrom, closeFrom_lineComment h, ih hrest]
    have hslash : '/'.utf8Size = 1 := rfl
    have hnewline : '\n'.utf8Size = 1 := rfl
    simp only [byteLength, byteLength_append, hslash, hnewline, Nat.add_assoc]
    congr 1
    omega
  | blockComment h _ ih =>
    simp only [List.cons_append, List.append_assoc]
    rw [closeFrom, closeFrom_blockComment h, ih hrest]
    have hslash : '/'.utf8Size = 1 := rfl
    have hstar : '*'.utf8Size = 1 := rfl
    simp only [byteLength, byteLength_append, hslash, hstar, Nat.add_assoc]
    congr 1
    omega

theorem IsFlat.ends (h : IsFlat cs) : EndsAtBrace cs := by
  intro rest n
  rw [Point.pastBraces, closeFrom, h.passed rfl, closeFrom, if_pos (Nat.le_refl _)]
  show Point.mk rest (n + 1 + byteLength cs + 1) = _
  congr 1
  omega

/-! What leads out of an expression. -/

inductive Unwinds : Nat → List Char → Prop where
  | last {cs : List Char} (h : IsFlat cs) : Unwinds 1 (cs ++ ['\x7d'])
  | more {depth : Nat} {cs text : List Char} (h : IsFlat cs) (rest : Unwinds depth text) :
      Unwinds (depth + 1) (cs ++ '\x7d' :: text)

def Inside.Unwinds : Inside → Nat → List Char → Prop
  | .code, depth, text => Markup.Unwinds depth text
  | .string quote, depth, text =>
    ∃ body more, text = body ++ quote :: more ∧ StringBody quote body ∧ Markup.Unwinds depth more
  | .lineComment, depth, text =>
    ∃ body more, text = body ++ '\n' :: more ∧ '\n' ∉ body ∧ Markup.Unwinds depth more
  | .blockComment, depth, text =>
    ∃ body more, text = body ++ '*' :: '/' :: more ∧ ¬ ['*', '/'] <:+: body ∧ Markup.Unwinds depth more

theorem Unwinds.ne_nil (h : Unwinds depth text) : text ≠ [] := by
  cases h <;> simp

/-- More code in front. -/
theorem Unwinds.front (h : Unwinds depth text) (front : List Char)
    (hfront : ∀ cs more, text = cs ++ '\x7d' :: more → IsFlat cs → IsFlat (front ++ cs)) :
    Unwinds depth (front ++ text) := by
  cases h with
  | @last cs h =>
    rw [← List.append_assoc]
    exact .last (hfront cs [] rfl h)
  | @more depth cs more h rest =>
    rw [← List.append_assoc]
    exact .more (hfront cs more rfl h) rest

theorem Unwinds.group (h : Unwinds (depth + 1) text) (hdepth : 0 < depth) :
    Unwinds depth ('\x7b' :: text) := by
  cases h with
  | last => omega
  | @more _ inside text hinside rest =>
    have hgroup := rest.front ('\x7b' :: (inside ++ ['\x7d'])) ?_
    · simpa using hgroup
    · intro cs more hcs hflat
      have hcode : IsFlat ('\x7b' :: (inside ++ '\x7d' :: cs)) := hinside.group hflat
      simpa using hcode

/-! One more character in front, for each place where the scan can be. -/

theorem Unwinds.lineComment (h : Inside.lineComment.Unwinds depth text) : Unwinds depth ('/' :: '/' :: text) := by
  obtain ⟨body, more, rfl, hbody, hmore⟩ := h
  have hfront := hmore.front ('/' :: '/' :: (body ++ ['\n'])) ?_
  · simpa using hfront
  · intro code _ _ hcode
    have hcomment : IsFlat ('/' :: '/' :: (body ++ '\n' :: code)) := hcode.lineComment hbody
    simpa using hcomment

theorem Unwinds.blockComment (h : Inside.blockComment.Unwinds depth text) : Unwinds depth ('/' :: '*' :: text) := by
  obtain ⟨body, more, rfl, hbody, hmore⟩ := h
  have hfront := hmore.front ('/' :: '*' :: (body ++ ['*', '/'])) ?_
  · simpa using hfront
  · intro code _ _ hcode
    have hcomment : IsFlat ('/' :: '*' :: (body ++ '*' :: '/' :: code)) := hcode.blockComment hbody
    simpa using hcomment

theorem Unwinds.literal (hquote : (c == '"' || c == '\'' || c == '`') = true)
    (h : (Inside.string c).Unwinds depth text) : Unwinds depth (c :: text) := by
  obtain ⟨body, more, rfl, hbody, hmore⟩ := h
  have hstring : IsString ['"', '\'', '`'] (c :: (body ++ [c])) :=
    ⟨c, by simpa [or_assoc] using hquote, body, hbody, rfl⟩
  have hfront := hmore.front (c :: (body ++ [c])) fun code _ _ hcode => hcode.literal hstring
  simpa using hfront

theorem Unwinds.char (h : Unwinds depth text) (hquote : ¬ (c == '"' || c == '\'' || c == '`') = true)
    (hopen : c ≠ '\x7b') (hclose : c ≠ '\x7d') (hslash : c = '/' → ∀ d ∈ text.head?, d ≠ '/' ∧ d ≠ '*') :
    Unwinds depth (c :: text) := by
  refine h.front [c] ?_
  intro code more hmore hcode
  by_cases hc : c = '/'
  · have hnext := hslash hc
    subst hc
    refine hcode.slash fun d hd => hnext d ?_
    obtain ⟨ds, rfl⟩ := List.head?_eq_some_iff.mp hd
    rw [hmore]
    rfl
  · refine hcode.plain ?_
    simp only [Bool.or_eq_true, beq_iff_eq, not_or] at hquote
    simp only [IsPlain, List.mem_cons, List.not_mem_nil, or_false, not_or]
    exact ⟨hopen, hclose, hquote.1.1, hquote.1.2, hquote.2, hc⟩

theorem Inside.unwinds_string {quote : Char} (hescape : c ≠ '\\')
    (h : (if (c == quote) = true then Inside.code else .string quote).Unwinds depth text) :
    (Inside.string quote).Unwinds depth (c :: text) := by
  by_cases hquote : (c == quote) = true
  · rw [if_pos hquote] at h
    obtain rfl := eq_of_beq hquote
    exact ⟨[], text, rfl, .nil, h⟩
  · rw [if_neg hquote] at h
    obtain ⟨body, more, rfl, hbody, hmore⟩ := h
    exact ⟨c :: body, more, rfl, .plain (by simpa using hquote) hescape hbody, hmore⟩

theorem Inside.unwinds_lineComment (h : (if (c == '\n') = true then Inside.code else .lineComment).Unwinds depth text) :
    Inside.lineComment.Unwinds depth (c :: text) := by
  by_cases hnewline : (c == '\n') = true
  · rw [if_pos hnewline] at h
    obtain rfl := eq_of_beq hnewline
    exact ⟨[], text, rfl, List.not_mem_nil, h⟩
  · rw [if_neg hnewline] at h
    obtain ⟨body, more, rfl, hbody, hmore⟩ := h
    refine ⟨c :: body, more, rfl, ?_, hmore⟩
    rw [List.mem_cons, not_or]
    exact ⟨fun hc => hnewline (by simp [← hc]), hbody⟩

theorem Inside.unwinds_blockComment (h : Inside.blockComment.Unwinds depth text)
    (hplain : ¬ ['*', '/'] <+: c :: text) : Inside.blockComment.Unwinds depth (c :: text) := by
  obtain ⟨body, more, rfl, hbody, hmore⟩ := h
  refine ⟨c :: body, more, rfl, ?_, hmore⟩
  rw [List.infix_cons_iff]
  rintro (hfront | hin)
  · obtain ⟨behind, hbehind⟩ := hfront
    refine hplain ⟨behind ++ '*' :: '/' :: more, ?_⟩
    rw [← List.append_assoc, hbehind]
    rfl
  · exact hbody hin

/-- Code that is closed is flat up to its closing brace. -/
theorem unwinds_of_closed (hdepth : 0 < depth) (h : (closeFrom inside depth cs n).rest ≠ []) :
    ∃ text, cs = text ++ (closeFrom inside depth cs n).rest ∧ inside.Unwinds depth text := by
  fun_induction closeFrom inside depth cs n with
  | case1 => exact absurd rfl h
  -- in a string: an escaped character, and any other one
  | case2 quote depth c cs n ih =>
    obtain ⟨text, hcs, body, more, rfl, hbody, hmore⟩ := ih hdepth h
    exact ⟨'\\' :: c :: (body ++ quote :: more), congrArg ('\\' :: c :: ·) hcs,
      '\\' :: c :: body, more, rfl, .escaped c hbody, hmore⟩
  | case3 quote depth c cs n hplain ih =>
    obtain ⟨text, hcs, htext⟩ := ih hdepth h
    refine ⟨c :: text, congrArg (c :: ·) hcs, Inside.unwinds_string ?_ htext⟩
    rintro rfl
    have hne : cs ≠ [] := by
      rw [hcs]
      exact List.append_ne_nil_of_right_ne_nil _ h
    obtain ⟨d, ds, hd⟩ := List.exists_cons_of_ne_nil hne
    exact hplain d ds rfl hd
  -- in a comment
  | case4 depth c cs n ih =>
    obtain ⟨text, hcs, htext⟩ := ih hdepth h
    exact ⟨c :: text, congrArg (c :: ·) hcs, Inside.unwinds_lineComment htext⟩
  | case5 depth cs n ih =>
    obtain ⟨text, hcs, htext⟩ := ih hdepth h
    exact ⟨'*' :: '/' :: text, congrArg ('*' :: '/' :: ·) hcs, [], text, rfl, by simp, htext⟩
  | case6 depth c cs n hplain ih =>
    obtain ⟨text, hcs, htext⟩ := ih hdepth h
    refine ⟨c :: text, congrArg (c :: ·) hcs, Inside.unwinds_blockComment htext ?_⟩
    rintro ⟨behind, hbehind⟩
    obtain ⟨rfl, rfl⟩ := List.cons.inj hbehind
    exact hplain _ rfl hcs
  -- in code: a comment begins, a brace opens or closes, and any other character
  | case7 depth cs n ih =>
    obtain ⟨text, hcs, htext⟩ := ih hdepth h
    exact ⟨'/' :: '/' :: text, congrArg ('/' :: '/' :: ·) hcs, Unwinds.lineComment htext⟩
  | case8 depth cs n ih =>
    obtain ⟨text, hcs, htext⟩ := ih hdepth h
    exact ⟨'/' :: '*' :: text, congrArg ('/' :: '*' :: ·) hcs, Unwinds.blockComment htext⟩
  | case9 depth cs n ih =>
    obtain ⟨text, hcs, htext⟩ := ih (Nat.succ_pos _) h
    exact ⟨'\x7b' :: text, congrArg ('\x7b' :: ·) hcs, Unwinds.group htext hdepth⟩
  | case10 depth cs n hone =>
    obtain rfl : depth = 1 := by omega
    exact ⟨['\x7d'], rfl, .last .nil⟩
  | case11 depth cs n hmany ih =>
    obtain ⟨depth, rfl⟩ : ∃ d, depth = d + 1 := ⟨depth - 1, by omega⟩
    obtain ⟨text, hcs, htext⟩ := ih (by omega) h
    exact ⟨'\x7d' :: text, congrArg ('\x7d' :: ·) hcs, .more .nil htext⟩
  | case12 depth c cs n hline hblock hopen hclose inside ih =>
    obtain ⟨text, hcs, htext⟩ := ih hdepth h
    refine ⟨c :: text, congrArg (c :: ·) hcs, ?_⟩
    by_cases hquote : (c == '"' || c == '\'' || c == '`') = true
    · exact Unwinds.literal hquote (by simpa only [inside, if_pos hquote] using htext)
    · have htext : Inside.code.Unwinds depth text := by simpa only [inside, if_neg hquote] using htext
      refine Unwinds.char htext hquote hopen hclose ?_
      rintro rfl d hd
      obtain ⟨ds, rfl⟩ := List.head?_eq_some_iff.mp hd
      constructor
      · rintro rfl
        exact hline _ rfl hcs
      · rintro rfl
        exact hblock _ rfl hcs

theorem EndsAtBrace.flat (h : EndsAtBrace cs) : IsFlat cs := by
  have hend : (closeFrom .code 1 (cs ++ ['\x7d', ' ']) 1).rest = [' '] := congrArg Point.rest (h [' '] 0)
  obtain ⟨text, hsplit, htext⟩ := unwinds_of_closed Nat.one_pos (by rw [hend]; simp)
  rw [hend] at hsplit
  obtain rfl : cs ++ ['\x7d'] = text := List.append_cancel_right (by simpa using hsplit : (cs ++ ['\x7d']) ++ [' '] = text ++ [' '])
  generalize hwhole : cs ++ ['\x7d'] = whole at htext
  cases htext with
  | last hflat =>
    rwa [List.append_cancel_right hwhole]
  | more _ rest => cases rest

/-! Templates. -/

/-- What holds no backtick stands in a string of backticks as it is. -/
theorem StringBody.around {inside : List Char} (h : StringBody '`' body) (hnone : '`' ∉ inside) :
    StringBody '`' (inside ++ '\x7d' :: body) := by
  induction inside using List.twoStepInduction with
  | nil => exact .plain (by decide) (by decide) h
  | singleton c =>
    have hquote : c ≠ '`' := fun hc => hnone (by simp [hc])
    by_cases hescape : c = '\\'
    · subst hescape
      exact .escaped '\x7d' h
    · exact .plain hquote hescape (.plain (by decide) (by decide) h)
  | cons_cons c d inside ih ih' =>
    obtain ⟨hc, hrest⟩ := not_or.mp (mt List.mem_cons.mpr hnone)
    obtain ⟨hd, hinside⟩ := not_or.mp (mt List.mem_cons.mpr hrest)
    by_cases hescape : c = '\\'
    · subst hescape
      exact .escaped d (ih hinside)
    · exact .plain (Ne.symm hc) hescape (ih' d hrest)

theorem TemplateBody.string {Substitution : List Char → Prop} (h : TemplateBody Substitution body)
    (hnone : ∀ inside, Substitution inside → '`' ∉ inside) : StringBody '`' body := by
  induction h with
  | nil => exact .nil
  | escaped c _ ih => exact .escaped c ih
  | plain hquote hescape _ _ ih => exact .plain hquote hescape ih
  | substituted hinside _ ih =>
    exact .plain (by decide) (by decide) (.plain (by decide) (by decide) (ih.around (hnone _ hinside)))

theorem IsString.mono {quotes more : List Char} (h : IsString quotes text) (hsub : quotes ⊆ more) :
    IsString more text := by
  obtain ⟨quote, hquote, hbody⟩ := h
  exact ⟨quote, hsub hquote, hbody⟩

theorem IsShallow.flat (h : IsShallow cs) : IsFlat cs := by
  refine Code.mono h fun text htext => ?_
  rcases htext with hstring | ⟨body, hbody, rfl⟩
  · exact hstring.mono (by simp)
  · exact ⟨'`', by simp, body, hbody.string fun _ hinside => hinside.2, rfl⟩

/-- A scan ends at the brace that closes an expression exactly if the expression is flat, and so it does
unless a substitution holds a backtick. -/
theorem endsAtBrace_iff_flat (cs : List Char) :
    (EndsAtBrace cs ↔ IsFlat cs) ∧ (IsShallow cs → IsExpression cs ∧ EndsAtBrace cs) :=
  ⟨⟨EndsAtBrace.flat, IsFlat.ends⟩, fun h => ⟨h.expression, h.flat.ends⟩⟩

def quotedBraces : List Char := "f(\x7b'\x7d'\x7d, `\x7d$\x7ba / \"\x7d\"\x7d` /* \x7d` */)".toList

theorem quotedBraces_isShallow : IsShallow quotedBraces := by
  have hsingle : IsLiteral 0 "'\x7d'".toList :=
    ⟨'\'', by decide, ['\x7d'], .plain (by decide) (by decide) .nil, rfl⟩
  have hdouble : IsLiteral 0 "\"\x7d\"".toList :=
    ⟨'"', by decide, ['\x7d'], .plain (by decide) (by decide) .nil, rfl⟩
  have hdivided : Code (IsLiteral 0) "a / \"\x7d\"".toList :=
    ((Code.literal hdouble .nil).chars [' '] (by decide)).slash (by rintro c ⟨⟩; decide) |>.chars ['a', ' '] (by decide)
  have hinside : Code (IsLiteral 0) "a / \"\x7d\"".toList ∧ '`' ∉ "a / \"\x7d\"".toList := ⟨hdivided, by decide⟩
  have hsubstituted : TemplateBody (fun inside => Code (IsLiteral 0) inside ∧ '`' ∉ inside)
      "$\x7ba / \"\x7d\"\x7d".toList := @TemplateBody.substituted _ "a / \"\x7d\"".toList [] hinside .nil
  have hbody := hsubstituted.plain (c := '\x7d') (by decide) (by decide) (by decide)
  have hcomment : IsShallow "/* \x7d` */)".toList :=
    .blockComment (by decide : ¬ ['*', '/'] <:+: " \x7d` ".toList) (.plain (by decide : IsPlain ')') .nil)
  have htemplate : IsShallow "`\x7d$\x7ba / \"\x7d\"\x7d` /* \x7d` */)".toList :=
    @Code.literal _ "`\x7d$\x7ba / \"\x7d\"\x7d`".toList _ (.inr ⟨_, hbody, rfl⟩) (hcomment.chars [' '] (by decide))
  have hstring : IsShallow ("'\x7d'".toList ++ []) := .literal (.inl hsingle) .nil
  have hgroup : IsShallow "\x7b'\x7d'\x7d, `\x7d$\x7ba / \"\x7d\"\x7d` /* \x7d` */)".toList :=
    hstring.group (htemplate.chars [',', ' '] (by decide))
  exact hgroup.chars ['f', '('] (by decide)

theorem quotedBraces_endsAtBrace :
    IsExpression quotedBraces ∧ EndsAtBrace quotedBraces ∧ IsFlat quotedBraces := by
  obtain ⟨hiff, hshallow⟩ := endsAtBrace_iff_flat quotedBraces
  obtain ⟨hexpression, hends⟩ := hshallow quotedBraces_isShallow
  exact ⟨hexpression, hends, hiff.mp hends⟩

/-- A template in a substitution of a template. The inner one holds a brace, which a scan takes for the
closing one. -/
def nestedTemplate : List Char := "`$\x7b`\x7d`\x7d`".toList

theorem nestedTemplate_not_endsAtBrace : IsExpression nestedTemplate ∧ ¬ EndsAtBrace nestedTemplate := by
  constructor
  · have hinner : TemplateBody (Code (IsLiteral 0)) ['\x7d'] := .plain (by decide) (by decide) (by decide) .nil
    have hcode : Code (IsLiteral 1) ("`\x7d`".toList ++ []) := .literal (.inr ⟨_, hinner, rfl⟩) .nil
    have houter : TemplateBody (Code (IsLiteral 1)) "$\x7b`\x7d`\x7d".toList := .substituted hcode .nil
    have hwhole : Code (IsLiteral 2) (nestedTemplate ++ []) := .literal (.inr ⟨_, houter, rfl⟩) .nil
    exact ⟨2, hwhole⟩
  · intro hends
    have hread : Point.pastBraces ⟨'\x7b' :: (nestedTemplate ++ ['\x7d']), 0⟩ = ⟨['`', '\x7d', '`', '\x7d'], 6⟩ := by
      decide +kernel
    exact absurd ((hends [] 0).symm.trans hread) (by decide)

end ClassSort.Markup
