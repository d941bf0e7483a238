import ClassSort.Proofs.Script.Tokens

/-!
A template is read piece by piece: up to a substitution, then what stands in the substitution, and up
to the closing backquote at last.
-/

namespace ClassSort.Script

open Script.Tree Reader
open Finds (found)

/-- A reader that finds a tree whenever it succeeds. -/
def Answers (p : Reader (List Tree)) : Prop := ∀ c ts c', p c = some (ts, c') → ts ≠ []

/-- What stands between two cursors, with as much as is taken at the second one. -/
theorem Cursor.Stands.bracketed {text opening closing rest : List Char} {c c' : Cursor} {n : Nat} (h : c.Stands text)
    (h' : c'.Stands text) (hopening : c.rest = opening ++ rest) (hclosing : c'.rest.take n = closing)
    (hbehind : c.offset + byteLength opening ≤ c'.offset) :
    Bracketed text ⟨c.offset, (c'.ahead n).last⟩ opening closing := by
  obtain ⟨front, htext, hfront⟩ := h.rest
  obtain ⟨front', htext', hfront'⟩ := h'.rest
  have hcut : front ++ opening ++ rest = front' ++ c'.rest := by
    rw [← htext', htext, hopening, List.append_assoc]
  obtain ⟨inside, rfl, -⟩ := append_cut hcut (by rw [byteLength_append]; omega)
  refine ⟨inside, sliceChars?_eq_some.mpr ⟨front, c'.rest.drop n, ?_, hfront, ?_⟩⟩
  · rw [htext', ← hclosing]
    simp
  · rw [← hclosing, byteLength_append, byteLength_append, Cursor.ahead]
    rw [byteLength_append, byteLength_append] at hfront'
    dsimp only
    omega

variable {g : Grammar} {inside : Reader (List Tree)} {text : List Char} {c c' : Cursor} {x : Tree} {t : Bool}

/-! One substitution. -/

theorem substitution_eq_some (h : Grammar.substitution inside c = some (x, c')) :
    ∃ n trees closing, chunkLength c.rest = some (n, false) ∧
      inside ((c.ahead n).ahead 2).settled = some (trees, closing) ∧
      (∃ rest, closing.rest = '\x7d' :: rest) ∧ closing.ahead 1 = c' ∧
      x = .node .substitution ⟨(c.ahead n).offset, c'.last⟩ trees := by
  obtain ⟨cs, m, hcs, h⟩ := bind_eq_some.mp h
  obtain ⟨rfl, rfl⟩ := pure_eq_some.mp hcs
  obtain ⟨⟨n, final⟩, m, hlift, h⟩ := bind_eq_some.mp h
  obtain ⟨hchunk, rfl⟩ := lift_eq_some.mp hlift
  obtain ⟨_, m, hcheck, h⟩ := bind_eq_some.mp h
  obtain ⟨hfinal, rfl⟩ := check_eq_some.mp hcheck
  obtain ⟨_, m, hbare, h⟩ := bind_eq_some.mp h
  obtain rfl := modify_eq_some.mp hbare
  obtain ⟨start, m, hmark, h⟩ := bind_eq_some.mp h
  obtain ⟨rfl, rfl⟩ := pure_eq_some.mp hmark
  obtain ⟨_, m, htoken, h⟩ := bind_eq_some.mp h
  obtain rfl := modify_eq_some.mp htoken
  obtain ⟨trees, closing, htrees, h⟩ := bind_eq_some.mp h
  obtain ⟨_, m, hclose, h⟩ := bind_eq_some.mp h
  obtain ⟨hbrace, rfl⟩ := bareSign_eq_some.mp hclose
  obtain ⟨rfl, rfl⟩ := node_eq_some.mp h
  obtain ⟨rest, hrest⟩ := List.isPrefixOf_iff_prefix.mp hbrace
  obtain rfl : final = false := by simpa using hfinal
  exact ⟨n, trees, closing, hchunk, htrees, ⟨rest, hrest.symm⟩, rfl, rfl⟩

theorem substitution_form (h : Grammar.substitution inside c = some (x, c')) : x.form = .substitution := by
  obtain ⟨_, _, _, -, -, -, -, rfl⟩ := substitution_eq_some h
  rfl

section

variable (hinside : Reads false t inside)
include hinside

/-- What stands in a substitution leaves its delimiters alone. -/
theorem substitution_takes : Reads false true (Grammar.substitution inside) := by
  intro text c x c' hc h
  obtain ⟨n, trees, closing, hchunk, htrees, ⟨rest, hbrace⟩, rfl, rfl⟩ := substitution_eq_some h
  have hbefore : Since false (c.outset text) true [] (c.ahead n) := ahead_since hc n
  have hopen : Since false ((c.ahead n).outset text) true [] ((c.ahead n).ahead 2) :=
    ahead_since hbefore.stands 2
  have hsettled := hopen.trans (settled_since hopen.stands)
  have hinner := hinside text _ _ _ hsettled.stands htrees
  have hclosed : Since false (closing.outset text) true [] (closing.ahead 1) :=
    ahead_since hinner.stands _
  have hwhole := (hbefore.trans hsettled).trans (hinner.trans hclosed)
  -- the delimiters are two bytes and one byte wide
  have hstart : ((c.ahead n).ahead 2).settled.last = (c.ahead n).offset + 2 := by
    obtain ⟨cs, hcs⟩ := chunkLength_behind hchunk
    simp only [Cursor.settled, Cursor.ahead, hcs]
    rfl
  have hstop : (closing.ahead 1).last = closing.offset + 1 := by
    simp only [Cursor.ahead, hbrace]
    rfl
  have hsane := hsettled.stands.sane
  have hmove := hinner.start
  have hrow := hinner.row
  have hspelled := hinner.spelled
  rw [found_trees] at hrow hspelled
  simp only [Cursor.outset] at hmove
  obtain ⟨front, hfront⟩ := chunkLength_behind hchunk
  refine { hwhole with
    row := row_single.mpr ⟨hbefore.start, sound_node.mpr ?_, .inr rfl, Nat.le_refl _⟩
    spelled := List.forall_mem_singleton.mpr (.node ?_ hspelled) }
  case refine_2 =>
    refine hbefore.stands.bracketed hinner.stands (hfront : _ = ['$', '\x7b'] ++ front) (by rw [hbrace]; rfl) ?_
    have hsane := hinner.stands.sane
    show (c.ahead n).offset + 2 ≤ closing.offset
    omega
  simp only [Form.inside, hstop]
  refine ⟨by omega, fun _ => by omega, trivial, Row.weaken hrow ?_ ?_⟩
  · simp only [Cursor.outset]
    omega
  · have := hinner.stands.sane
    omega

end

/-! A whole template. -/

theorem template_eq_some (h : g.template inside c = some (x, c')) : ∃ substitutions m n,
    (∃ rest, c.rest = '`' :: rest) ∧
      many g.fuel (Grammar.substitution inside) (c.ahead 1) = some (substitutions, m) ∧
      chunkLength m.rest = some (n, true) ∧ (m.ahead (n + 1)).settled = c' ∧
      x = .node .template ⟨c.offset, c'.last⟩ substitutions := by
  obtain ⟨start, m, hmark, h⟩ := bind_eq_some.mp h
  obtain ⟨rfl, rfl⟩ := pure_eq_some.mp hmark
  obtain ⟨_, m, hopen, h⟩ := bind_eq_some.mp h
  obtain ⟨hquote, rfl⟩ := bareSign_eq_some.mp hopen
  obtain ⟨substitutions, m, hmany, h⟩ := bind_eq_some.mp h
  obtain ⟨cs, m, hcs, h⟩ := bind_eq_some.mp h
  obtain ⟨rfl, rfl⟩ := pure_eq_some.mp hcs
  obtain ⟨⟨n, final⟩, m, hlift, h⟩ := bind_eq_some.mp h
  obtain ⟨hchunk, rfl⟩ := lift_eq_some.mp hlift
  obtain ⟨_, m, hcheck, h⟩ := bind_eq_some.mp h
  obtain ⟨rfl, rfl⟩ := check_eq_some.mp hcheck
  obtain ⟨_, m, htoken, h⟩ := bind_eq_some.mp h
  obtain rfl := modify_eq_some.mp htoken
  obtain ⟨rfl, rfl⟩ := node_eq_some.mp h
  obtain ⟨rest, hrest⟩ := List.isPrefixOf_iff_prefix.mp hquote
  exact ⟨substitutions, _, n, ⟨rest, hrest.symm⟩, hmany, hchunk, rfl, rfl⟩

theorem template_form (h : g.template inside c = some (x, c')) : x.form = .template := by
  obtain ⟨_, _, _, -, -, -, -, rfl⟩ := template_eq_some h
  rfl

theorem template_forms (h : g.template inside c = some (x, c')) :
    ∀ s ∈ x.children, s.form = .substitution := by
  obtain ⟨_, _, _, -, hmany, -, -, rfl⟩ := template_eq_some h
  exact many_all (fun _ _ _ => substitution_form) hmany

/-- The substitutions of a template. -/
theorem template_since (hinside : Reads false t inside) (hc : c.Stands text)
    (h : g.template inside c = some (x, c')) : Since false (c.outset text) true x.children c' := by
  obtain ⟨substitutions, m, n, -, hmany, -, rfl, rfl⟩ := template_eq_some h
  have hopen : Since false (c.outset text) true [] (c.ahead 1) := ahead_since hc 1
  have hinner := hopen.trans (many_reads (substitution_takes hinside) g.fuel text _ _ _ hopen.stands hmany)
  have hclose : Since false (m.outset text) true [] (m.ahead (n + 1)) := ahead_since hinner.stands _
  have hwhole := hinner.trans (hclose.trans (settled_since hclose.stands))
  rwa [found_trees, List.nil_append, List.append_nil, List.append_nil] at hwhole

/-- A template begins and ends with a backquote. -/
theorem template_bracketed (hinside : Reads false t inside) (hc : c.Stands text)
    (h : g.template inside c = some (x, c')) : Bracketed text x.span ['`'] ['`'] := by
  obtain ⟨substitutions, m, n, ⟨rest, hquote⟩, hmany, hchunk, rfl, rfl⟩ := template_eq_some h
  have hopen : Since false (c.outset text) true [] (c.ahead 1) := ahead_since hc 1
  have hinner := many_reads (substitution_takes hinside) g.fuel text _ _ _ hopen.stands hmany
  obtain ⟨rest', hclosing⟩ := chunkLength_behind hchunk
  have hopening : c.rest = ['`'] ++ rest := hquote
  have hlast : ((m.ahead n).ahead 1).last = (m.ahead (n + 1)).settled.last := by
    simp only [Cursor.settled, Cursor.ahead, List.take_add, byteLength_append, Nat.add_assoc]
  have hbracketed := hc.bracketed (n := 1) (hinner.stands.ahead n) hopening
    (by rw [Cursor.ahead, hclosing]) ?_
  · rwa [hlast] at hbracketed
  · have hmove := hinner.start
    simp only [Cursor.outset, Cursor.ahead, hquote] at hmove ⊢
    exact Nat.le_trans hmove (Nat.le_add_right _ _)

theorem template_takes (hinside : Reads false t inside) : Reads false true (g.template inside) := by
  intro text c x c' hc h
  have hsince := template_since hinside hc h
  have hforms := template_forms h
  have hbracketed := template_bracketed hinside hc h
  obtain ⟨substitutions, m, n, -, -, -, -, rfl⟩ := template_eq_some h
  exact hsince.node (List.Sublist.refl _) (by simp) (fun u hu => .inl (hforms u hu)) hbracketed (by simp) (.inr rfl)

end ClassSort.Script
