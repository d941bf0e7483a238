import ClassSort.Proofs.Markup.Balanced
import ClassSort.Rule.StyleLang

/-!
The at-keywords of a style sheet. A sheet is a row of comments, strings, escapes, at-keywords and other
characters, and `@apply` is used if one of its at-keywords is that. The scan knows of no escapes outside
strings, and of names no letters but those of ASCII: an escaped quote opens a string for it, and a name
that goes on with an accented letter is taken for the shorter one. Sheets without such places are
scanned as they are written.
-/

namespace ClassSort.StyleLang

open Markup (StringBody)

def isNameLetter (c : Char) : Bool := c.isAlphanum || c == '-' || c == '_' || 128 ≤ c.toNat

inductive Lexeme where
  | comment (body : List Char)
  | string (quote : Char) (body : List Char)
  /-- A backslash outside of strings, and the character that has no meaning behind it. -/
  | escape (c : Char)
  /-- The letters behind an at sign, up to an escape or to what is no letter. -/
  | atKeyword (name : List Char)
  | other (c : Char)
  deriving DecidableEq

def Lexeme.text : Lexeme → List Char
  | comment body => '/' :: '*' :: (body ++ ['*', '/'])
  | string quote body => quote :: (body ++ [quote])
  | escape c => ['\\', c]
  | atKeyword name => '@' :: name
  | other c => [c]

def sheet (lexemes : List Lexeme) : List Char := lexemes.flatMap Lexeme.text

/-- Comments and strings end where they are closed first, and names where no letter follows. Other
characters begin nothing. -/
def Lexeme.WellFormed (behind : List Char) : Lexeme → Prop
  | comment body => ¬ ['*', '/'] <:+: body
  | string quote body => (quote = '"' ∨ quote = '\'') ∧ StringBody quote body
  | escape _ => True
  | atKeyword name =>
    name ≠ [] ∧ (∀ c ∈ name, isNameLetter c = true) ∧ behind.head?.any isNameLetter = false
  | other c => c ≠ '"' ∧ c ≠ '\'' ∧ (c = '\\' → behind = []) ∧ (c = '/' → behind.head? ≠ some '*') ∧
    (c = '@' → behind.head?.any isNameLetter = false)

instance (behind : List Char) : (l : Lexeme) → Decidable (l.WellFormed behind)
  | .comment _ => inferInstanceAs (Decidable (¬ _))
  | .escape _ => inferInstanceAs (Decidable True)
  | .string .. | .atKeyword _ | .other _ => inferInstanceAs (Decidable (_ ∧ _))

/-- Lexemes that are read again from the text that they make up. -/
def Lexed : List Lexeme → Prop
  | [] => True
  | l :: ls => l.WellFormed (sheet ls) ∧ Lexed ls

instance Lexed.decidable : (ls : List Lexeme) → Decidable (Lexed ls)
  | [] => inferInstanceAs (Decidable True)
  | _ :: ls =>
    have := Lexed.decidable ls
    inferInstanceAs (Decidable (_ ∧ _))

def applyName : List Char := ['a', 'p', 'p', 'l', 'y']

/-- The at-keyword is `@apply`: neither a letter nor an escape goes on with the name. -/
def Lexeme.IsApply (behind : List Char) (l : Lexeme) : Prop :=
  l = .atKeyword applyName ∧ behind.head? ≠ some '\\'

instance (behind : List Char) (l : Lexeme) : Decidable (l.IsApply behind) :=
  inferInstanceAs (Decidable (_ ∧ _))

def HasApply : List Lexeme → Prop
  | [] => False
  | l :: ls => l.IsApply (sheet ls) ∨ HasApply ls

instance HasApply.decidable : (ls : List Lexeme) → Decidable (HasApply ls)
  | [] => inferInstanceAs (Decidable False)
  | _ :: ls =>
    have := HasApply.decidable ls
    inferInstanceAs (Decidable (_ ∨ _))

def Begins (c : Char) (behind : List Char) : Prop :=
  c = '"' ∨ c = '\'' ∨ (c = '/' ∧ behind.head? = some '*') ∨
    (c = '@' ∧ applyName <+: behind ∧ (behind.drop applyName.length).head?.any continuesName = false)

instance (c : Char) (behind : List Char) : Decidable (Begins c behind) := inferInstanceAs (Decidable (_ ∨ _))

/-- A lexeme that a scan takes for something else: what is escaped begins something for it, or a longer
name is taken for `@apply`. -/
def Lexeme.Misread (behind : List Char) : Lexeme → Prop
  | escape c => Begins c behind
  | atKeyword name => Begins '@' (name ++ behind) ∧ ¬ (atKeyword name).IsApply behind
  | _ => False

instance (behind : List Char) : (l : Lexeme) → Decidable (l.Misread behind)
  | .escape _ => inferInstanceAs (Decidable (Begins _ _))
  | .atKeyword _ => inferInstanceAs (Decidable (_ ∧ _))
  | .comment _ | .string _ _ | .other _ => inferInstanceAs (Decidable False)

def Clear : List Lexeme → Prop
  | [] => True
  | l :: ls => l.IsApply (sheet ls) ∨ ¬ l.Misread (sheet ls) ∧ Clear ls

instance Clear.decidable : (ls : List Lexeme) → Decidable (Clear ls)
  | [] => inferInstanceAs (Decidable True)
  | _ :: ls =>
    have := Clear.decidable ls
    inferInstanceAs (Decidable (_ ∨ _))

variable {c quote : Char} {cs body name behind : List Char} {l : Lexeme} {ls : List Lexeme}

/-! What a scan passes. -/

attribute [local simp] usesApplyFrom

theorem usesApplyFrom_ordinary (h : ¬ Begins c cs) :
    usesApplyFrom .rules (c :: cs) = usesApplyFrom .rules cs := by
  simp only [Begins, not_or, not_and, Bool.not_eq_false] at h
  obtain ⟨hdouble, hsingle, hslash, hat⟩ := h
  by_cases happly : c = '@' ∧ applyName <+: cs
  · -- a longer name is left behind its first letters, which are ordinary
    obtain ⟨rfl, more, rfl⟩ := happly
    have hlonger : more.head?.any continuesName = true := by simpa using hat rfl (List.prefix_append ..)
    simp [applyName, hlonger]
  · rw [usesApplyFrom]
    · simp [hdouble, hsingle]
    · rintro more rfl rfl
      exact hslash rfl rfl
    · rintro more rfl rfl
      exact happly ⟨rfl, List.prefix_append applyName more⟩

theorem usesApplyFrom_comment (h : ¬ ['*', '/'] <:+: body) :
    usesApplyFrom .comment (body ++ '*' :: '/' :: cs) = usesApplyFrom .rules cs := by
  induction body with
  | nil => simp
  | cons c body ih =>
    have hbody : ¬ ['*', '/'] <:+: body := fun hin => h (List.infix_cons hin)
    rw [List.cons_append, usesApplyFrom, ih hbody]
    -- the comment does not end before its mark
    rintro more rfl hmore
    cases body with
    | nil => simp at hmore
    | cons d body =>
      obtain ⟨rfl, -⟩ := List.cons.inj hmore
      exact h ⟨[], body, rfl⟩

theorem usesApplyFrom_string (hquote : quote ≠ '\\') (h : StringBody quote body) :
    usesApplyFrom (.string quote) (body ++ quote :: cs) = usesApplyFrom .rules cs := by
  induction h with
  | nil =>
    rw [List.nil_append, usesApplyFrom]
    · simp
    · exact fun h _ => absurd h hquote
    · exact fun _ _ h _ => absurd h hquote
  | escaped c _ ih => rw [List.cons_append, List.cons_append, usesApplyFrom, ih]
  | plain hend hescape _ ih =>
    rw [List.cons_append, usesApplyFrom]
    · rw [if_neg (by simpa using hend), ih]
    · exact fun h _ => absurd h hescape
    · exact fun _ _ h _ => absurd h hescape

/-- Letters of a name begin nothing. -/
theorem not_begins_of_isNameLetter (h : isNameLetter c = true) : ¬ Begins c cs := by
  rintro (rfl | rfl | ⟨rfl, -⟩ | ⟨rfl, -⟩) <;> exact absurd h (by decide)

theorem usesApplyFrom_name (h : ∀ c ∈ name, isNameLetter c = true) :
    usesApplyFrom .rules (name ++ cs) = usesApplyFrom .rules cs := by
  induction name with
  | nil => rfl
  | cons c name ih =>
    obtain ⟨hc, hname⟩ := List.forall_mem_cons.mp h
    rw [List.cons_append, usesApplyFrom_ordinary (not_begins_of_isNameLetter hc), ih hname]

/-- What is no lexeme of its own begins nothing. -/
theorem Lexeme.WellFormed.not_begins (h : (other c).WellFormed behind) : ¬ Begins c behind := by
  obtain ⟨hdouble, hsingle, -, hslash, hat⟩ := h
  rintro (rfl | rfl | ⟨rfl, hstar⟩ | ⟨rfl, ⟨more, rfl⟩, -⟩)
  · exact hdouble rfl
  · exact hsingle rfl
  · exact hslash rfl hstar
  · exact absurd (hat rfl) (by simp [applyName, isNameLetter])

/-- A lexeme that is read as what it is, and is not `@apply`, is passed. -/
theorem usesApplyFrom_passed (hwell : l.WellFormed behind) (hmisread : ¬ l.Misread behind)
    (happly : ¬ l.IsApply behind) :
    usesApplyFrom .rules (l.text ++ behind) = usesApplyFrom .rules behind := by
  cases l with
  | comment body =>
    simp only [Lexeme.text, List.cons_append, List.append_assoc, List.nil_append]
    rw [usesApplyFrom, usesApplyFrom_comment hwell]
  | string quote body =>
    obtain ⟨hquote, hbody⟩ := hwell
    have hslash : quote ≠ '\\' := by rintro rfl; simp at hquote
    have hopens (rest : List Char) :
        usesApplyFrom .rules (quote :: rest) = usesApplyFrom (.string quote) rest := by
      rcases hquote with rfl | rfl <;> simp
    simp only [Lexeme.text, List.cons_append, List.append_assoc, List.nil_append]
    rw [hopens, usesApplyFrom_string hslash hbody]
  | escape c =>
    have hbackslash : ¬ Begins '\\' (c :: behind) := by simp [Begins]
    exact (usesApplyFrom_ordinary hbackslash).trans (usesApplyFrom_ordinary hmisread)
  | atKeyword name =>
    have hat : ¬ Begins '@' (name ++ behind) := fun hbegins => hmisread ⟨hbegins, happly⟩
    exact (usesApplyFrom_ordinary hat).trans (usesApplyFrom_name hwell.2.1)
  | other c => exact usesApplyFrom_ordinary hwell.not_begins

theorem continuesName_eq_false (h : isNameLetter c = false) : continuesName c = false := by
  simp only [isNameLetter, Bool.or_eq_false_iff] at h
  simp only [continuesName, Bool.or_eq_false_iff]
  exact h.1

theorem usesApplyFrom_apply (hwell : l.WellFormed behind) (h : l.IsApply behind) :
    usesApplyFrom .rules (l.text ++ behind) = true := by
  obtain ⟨rfl, -⟩ := h
  have hends : behind.head?.any continuesName = false := by
    cases behind with
    | nil => rfl
    | cons c behind => exact continuesName_eq_false hwell.2.2
  simp [Lexeme.text, applyName, hends]

/-- In a sheet whose lexemes are read as what they are, `@apply` is found exactly if one of the at-keywords
outside comments and strings is `@apply`. -/
theorem usesApply_iff_hasApply (hlexed : Lexed ls) (hclear : Clear ls) :
    usesApply (String.ofList (sheet ls)) = true ↔ HasApply ls := by
  rw [usesApply, String.toList_ofList]
  induction ls with
  | nil => simp [sheet, usesApplyFrom, HasApply]
  | cons l ls ih =>
    obtain ⟨hwell, hrest⟩ := hlexed
    rw [sheet, List.flatMap_cons, ← sheet, HasApply]
    by_cases happly : l.IsApply (sheet ls)
    · simp [usesApplyFrom_apply hwell happly, happly]
    · obtain ⟨hmisread, hclear⟩ := hclear.resolve_left happly
      rw [usesApplyFrom_passed hwell hmisread happly, ih hrest hclear]
      simp [happly]

/-- A rule with a comment, an escape, a string and three at-keywords:
`/* @apply */a\:{@media "\"@apply";@apply-x;@apply z}` -/
def ruleSheet : List Lexeme :=
  [.comment " @apply ".toList, .other 'a', .escape ':', .other '\x7b', .atKeyword "media".toList, .other ' ',
    .string '"' "\\\"@apply".toList, .other ';', .atKeyword "apply-x".toList, .other ';', .atKeyword applyName,
    .other ' ', .other 'z', .other '\x7d']

/-- The sheet is read as it is written, and its last at-keyword is found. -/
theorem ruleSheet_usesApply : Lexed ruleSheet ∧ Clear ruleSheet ∧ HasApply ruleSheet ∧
    usesApply (String.ofList (sheet ruleSheet)) = true := by
  have hlexed : Lexed ruleSheet := by decide +kernel
  have hclear : Clear ruleSheet := by decide +kernel
  have happly : HasApply ruleSheet := by decide +kernel
  exact ⟨hlexed, hclear, happly, (usesApply_iff_hasApply hlexed hclear).mpr happly⟩

def escapedQuoteSheet : List Lexeme :=
  [.other 'a', .escape '"', .other '\x7b', .atKeyword applyName, .other ' ', .other 'z', .other '\x7d']

def accentedSheet : List Lexeme := [.atKeyword (applyName ++ ['é']), .other ';']

/-- Behind an escaped quote `@apply` is not found, and a longer name is taken for it. -/
theorem escapedQuote_hides_apply :
    (Lexed escapedQuoteSheet ∧ HasApply escapedQuoteSheet ∧
      usesApply (String.ofList (sheet escapedQuoteSheet)) = false) ∧
    Lexed accentedSheet ∧ ¬ HasApply accentedSheet ∧
      usesApply (String.ofList (sheet accentedSheet)) = true := by
  decide +kernel

end ClassSort.StyleLang
