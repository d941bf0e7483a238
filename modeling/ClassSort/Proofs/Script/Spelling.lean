import ClassSort.Proofs.Script.Nesting
import ClassSort.Proofs.Text.Cuts
import ClassSort.Script.Cursor
import Mathlib.Data.List.Infix

/-!
What stands in the text where a tree was found. A string begins and ends with its quote, a name is
spelled with its letters, and a template and its substitutions stand between their delimiters; of all
other trees only what lies inside them is known.
-/

namespace ClassSort.Script

/-- The whole name at the front of a text. -/
structure IsName (name : List Char) : Prop where
  nonempty : name ≠ []
  front : ∃ cs, name = nameAt cs

def Bracketed (text : List Char) (s : Span) (opening closing : List Char) : Prop :=
  ∃ inside, sliceChars? text s = some (opening ++ inside ++ closing)

def Form.Spelled (text : List Char) : Form → Span → Prop
  | .string, s => ∃ quote, (quote = '"' ∨ quote = '\'') ∧ Bracketed text s [quote] [quote]
  | .identifier, s | .propertyName, s | .shorthand, s => ∃ name, sliceChars? text s = some name ∧ IsName name
  | .template, s => Bracketed text s ['`'] ['`']
  | .substitution, s => Bracketed text s ['$', '\x7b'] ['\x7d']
  | _, _ => True

inductive Tree.Spelled (text : List Char) : Tree → Prop where
  | node {form : Form} {s : Span} {trees : List Tree} : form.Spelled text s →
      (∀ t ∈ trees, t.Spelled text) → (Tree.node form s trees).Spelled text

variable {text : List Char}

theorem Tree.Spelled.children {t : Tree} (h : t.Spelled text) : ∀ u ∈ t.children, u.Spelled text := by
  cases h with
  | node _ htrees => exact htrees

theorem Tree.Spelled.form {form : Form} {s : Span} {trees : List Tree}
    (h : (Tree.node form s trees).Spelled text) : form.Spelled text s := by
  cases h with
  | node hform _ => exact hform

/-! Names. -/

theorem nameChars_front (inBraces : Bool) (cs : List Char) : nameChars inBraces cs <+: cs := by
  fun_induction nameChars inBraces cs with
  | case1 cs ih => exact List.prefix_append_right_inj ['\\', 'u', '\x7b'] |>.mpr ih
  | case2 cs _ ih => exact List.prefix_append_right_inj ['\\', 'u'] |>.mpr ih
  | case3 c cs _ _ _ ih => exact List.cons_prefix_cons.mpr ⟨rfl, ih⟩
  | case4 => exact List.nil_prefix
  | case5 c cs _ ih => exact List.cons_prefix_cons.mpr ⟨rfl, ih⟩
  | case6 c cs _ _ ih => exact List.cons_prefix_cons.mpr ⟨rfl, ih⟩
  | case7 => exact List.nil_prefix
  | case8 => exact List.nil_prefix

theorem nameAt_front (cs : List Char) : nameAt cs <+: cs := by
  unfold nameAt
  split
  · split
    · exact List.nil_prefix
    · exact nameChars_front _ _
  · exact List.nil_prefix

/-- What a name takes off the front of a text is the name. -/
theorem take_nameAt (cs : List Char) : cs.take (nameAt cs).length = nameAt cs :=
  (List.prefix_iff_eq_take.mp (nameAt_front cs)).symm

def IsPlain (c : Char) : Prop := c ≠ '(' ∧ c ≠ ')'

instance (c : Char) : Decidable (IsPlain c) := inferInstanceAs (Decidable (_ ∧ _))

/-- What passes a test that both parentheses fail. -/
theorem isPlain_of_test {test : Char → Bool} {c : Char} (h : test c = true) (hopen : test '(' = false)
    (hclose : test ')' = false) : IsPlain c := by
  constructor
  · rintro rfl
    exact absurd h (by simp [hopen])
  · rintro rfl
    exact absurd h (by simp [hclose])

theorem nameChars_plain (inBraces : Bool) (cs : List Char) :
    ∀ c ∈ nameChars inBraces cs, IsPlain c := by
  fun_induction nameChars inBraces cs with
  | case1 cs ih =>
    simpa only [List.forall_mem_cons] using ⟨by decide, by decide, by decide, ih⟩
  | case2 cs _ ih => simpa only [List.forall_mem_cons] using ⟨by decide, by decide, ih⟩
  | case3 c cs _ _ hpart ih =>
    exact List.forall_mem_cons.mpr ⟨isPlain_of_test hpart (by decide) (by decide), ih⟩
  | case4 => simp
  | case5 c cs hbrace ih =>
    obtain rfl : c = '\x7d' := by simpa using hbrace
    exact List.forall_mem_cons.mpr ⟨by decide, ih⟩
  | case6 c cs _ hdigit ih =>
    exact List.forall_mem_cons.mpr ⟨isPlain_of_test hdigit (by decide) (by decide), ih⟩
  | case7 => simp
  | case8 => simp

theorem IsName.plain {name : List Char} (h : IsName name) : ∀ c ∈ name, IsPlain c := by
  obtain ⟨cs, rfl⟩ := h.front
  unfold nameAt
  split
  · split
    · simp
    · exact nameChars_plain _ _
  · simp

/-! Strings. -/

/-- The text behind an opening quote ends with the same quote. -/
theorem take_quotedLength {quote : Char} {cs : List Char} {n : Nat} (h : quotedLength quote cs = some n) :
    ∃ body, cs.take n = body ++ [quote] := by
  fun_induction quotedLength quote cs generalizing n with
  | case1 cs ih =>
    obtain ⟨k, hk, rfl⟩ := Option.map_eq_some_iff.mp h
    obtain ⟨body, hbody⟩ := ih hk
    exact ⟨'\\' :: '\r' :: '\n' :: body, by simp [hbody]⟩
  | case2 c cs _ ih =>
    obtain ⟨k, hk, rfl⟩ := Option.map_eq_some_iff.mp h
    obtain ⟨body, hbody⟩ := ih hk
    exact ⟨'\\' :: c :: body, by simp [hbody]⟩
  | case3 c cs _ _ hquote =>
    cases h
    exact ⟨[], by simpa using hquote⟩
  | case4 => cases h
  | case5 c cs _ _ _ _ ih =>
    obtain ⟨k, hk, rfl⟩ := Option.map_eq_some_iff.mp h
    obtain ⟨body, hbody⟩ := ih hk
    exact ⟨c :: body, by simp [hbody]⟩
  | case6 => cases h

/-! Templates. -/

/-- Behind a chunk stands its closing delimiter. -/
theorem chunkLength_behind {cs : List Char} {n : Nat} {final : Bool}
    (h : chunkLength cs = some (n, final)) :
    ∃ rest, cs.drop n = (if final then ['`'] else ['$', '\x7b']) ++ rest := by
  fun_induction chunkLength cs generalizing n with
  | case1 c cs ih =>
    obtain ⟨⟨k, final⟩, hk, he⟩ := Option.map_eq_some_iff.mp h
    obtain ⟨rfl, rfl⟩ := Prod.mk.injEq .. ▸ he
    exact ih hk
  | case2 cs =>
    obtain ⟨rfl, rfl⟩ := Prod.mk.injEq .. ▸ Option.some.inj h
    exact ⟨cs, rfl⟩
  | case3 cs =>
    obtain ⟨rfl, rfl⟩ := Prod.mk.injEq .. ▸ Option.some.inj h
    exact ⟨cs, rfl⟩
  | case4 c cs _ _ _ ih =>
    obtain ⟨⟨k, final⟩, hk, he⟩ := Option.map_eq_some_iff.mp h
    obtain ⟨rfl, rfl⟩ := Prod.mk.injEq .. ▸ he
    exact ih hk
  | case5 => simp at h

end ClassSort.Script
