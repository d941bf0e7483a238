import ClassSort.Proofs.Script.Reading

/-!
What single tokens do, and the ways of putting readers together: a reader may be tried, repeated or
listed with commas. Skipping blanks and comments loses no byte.
-/

namespace ClassSort.Script

open Script.Tree Reader
open Finds (found)

variable {α : Type} {declares declares' taken t : Bool} {text : List Char} {o : Outset}
  {ts us : List Tree} {c c' : Cursor}

theorem skipGap_front (gap : Gap) (cs : List Char) (n : Nat) (newline : Bool) :
    ∃ front, cs = front ++ (skipGap gap cs n newline).1 ∧
      n + byteLength front = (skipGap gap cs n newline).2.1 := by
  have hslash : '/'.utf8Size = 1 := by decide
  have hstar : '*'.utf8Size = 1 := by decide
  -- what one call skips stands in front of what the next one does
  have hmore (skipped : List Char) {cs rest : List Char} {n k : Nat}
      (ih : ∃ front, cs = front ++ rest ∧ n + byteLength skipped + byteLength front = k) :
      ∃ front, skipped ++ cs = front ++ rest ∧ n + byteLength front = k := by
    obtain ⟨front, rfl, rfl⟩ := ih
    exact ⟨skipped ++ front, by simp, by rw [byteLength_append]; omega⟩
  fun_induction skipGap gap cs n newline with
  | case1 cs n newline ih => exact hmore ['/', '/'] (by simpa [byteLength, hslash] using ih)
  | case2 cs n newline ih =>
    exact hmore ['/', '*'] (by simpa [byteLength, hslash, hstar] using ih)
  | case3 c cs n newline _ _ _ ih => exact hmore [c] (by simpa [byteLength] using ih)
  | case4 => exact ⟨[], rfl, rfl⟩
  | case5 c cs n newline _ ih => exact hmore [c] (by simpa [byteLength] using ih)
  | case6 cs n newline ih =>
    exact hmore ['*', '/'] (by simpa [byteLength, hslash, hstar] using ih)
  | case7 c cs n newline _ ih => exact hmore [c] (by simpa [byteLength] using ih)
  | case8 => exact ⟨[], rfl, rfl⟩

namespace Cursor.Stands

variable (h : c.Stands text)
include h

theorem ahead (n : Nat) : (c.ahead n).Stands text := by
  obtain ⟨front, htext, hfront⟩ := h.rest
  refine ⟨⟨front ++ c.rest.take n, ?_, ?_⟩, Nat.le_refl _⟩
  · simp [Cursor.ahead, htext]
  · simp [Cursor.ahead, byteLength_append, hfront]

theorem settled : c.settled.Stands text := by
  obtain ⟨front, htext, hfront⟩ := h.rest
  obtain ⟨skipped, hrest, hskipped⟩ := skipGap_front .blank c.rest c.offset c.newline
  have hskipped : c.offset + byteLength skipped = c.settled.offset := hskipped
  have hsane := h.sane
  refine ⟨⟨front ++ skipped, ?_, ?_⟩, ?_⟩
  · rw [htext, List.append_assoc]
    exact congrArg (front ++ ·) hrest
  · rw [byteLength_append, hfront, hskipped]
  · show c.last ≤ c.settled.offset
    omega

/-- What is taken stands between the two cursors. -/
theorem slice_ahead (n : Nat) : sliceChars? text ⟨c.offset, (c.ahead n).last⟩ = some (c.rest.take n) := by
  obtain ⟨front, htext, hfront⟩ := h.rest
  exact sliceChars?_eq_some.mpr ⟨front, c.rest.drop n, by simp [htext], hfront, rfl⟩

theorem offset_le : c.offset ≤ byteLength text := by
  obtain ⟨front, rfl, hfront⟩ := h.rest
  rw [byteLength_append]
  omega

end Cursor.Stands

theorem settled_since (h : c.Stands text) : Since declares (c.outset text) false [] c.settled := by
  obtain ⟨skipped, -, hskipped⟩ := skipGap_front .blank c.rest c.offset c.newline
  have hskipped : c.offset + byteLength skipped = c.settled.offset := hskipped
  exact ⟨h.settled, hskipped ▸ Nat.le_add_right _ _, Nat.le_refl _, by simp, row_nil, by simp⟩

theorem ahead_since (h : c.Stands text) (n : Nat) :
    Since declares (c.outset text) true [] (c.ahead n) := by
  have hsane := h.sane
  refine ⟨h.ahead n, ?_, ?_, fun _ => ?_, row_nil, by simp⟩
  · simp only [Cursor.ahead, Cursor.outset]
    omega
  · simp only [Cursor.ahead, Cursor.outset]
    omega
  · simp only [Cursor.ahead, Cursor.outset]
    omega

theorem modify_eq_some {f : Cursor → Cursor} {x : Unit} :
    (modify f : Reader Unit) c = some (x, c') ↔ f c = c' := by
  show some ((), f c) = some (x, c') ↔ _
  simp

theorem bare_takes (n : Nat) : Reads declares true (bare n) := by
  intro text c x c' hc h
  obtain rfl := modify_eq_some.mp h
  exact ahead_since hc n

theorem token_takes (n : Nat) : Reads declares true (token n) := by
  intro text c x c' hc h
  obtain rfl := modify_eq_some.mp h
  have hahead : Since declares (c.outset text) true [] (c.ahead n) := ahead_since hc n
  exact hahead.trans (settled_since hahead.stands)

theorem settle_reads : Reads declares false settle := by
  intro text c x c' hc h
  obtain rfl := modify_eq_some.mp h
  exact settled_since hc

/-! Looking. -/

theorem check_eq_some {b : Bool} {x : Unit} : check b c = some (x, c') ↔ b = true ∧ c = c' := by
  cases b with
  | true => rw [check, if_pos rfl, pure_eq_some]; simp
  | false =>
    constructor
    · intro h
      cases h
    · intro h
      cases h.1

theorem check_looks (b : Bool) : Looks (check b) := fun _ _ _ h => (check_eq_some.mp h).2.symm

theorem rest_looks : Looks rest := fun _ _ _ h => (pure_eq_some.mp h).2.symm

theorem next?_looks : Looks next? := fun _ _ _ h => (pure_eq_some.mp h).2.symm

theorem newline_looks : Looks newline := fun _ _ _ h => (pure_eq_some.mp h).2.symm

theorem sees_looks (text : String) : Looks (sees text) :=
  fun _ _ _ h => (pure_eq_some.mp h).2.symm

theorem seesKeyword_looks (name : String) : Looks (seesKeyword name) :=
  fun _ _ _ h => (pure_eq_some.mp h).2.symm

theorem ahead_looks (p : Reader α) : Looks (Reader.ahead p) := by
  intro c x c' h
  simp only [Reader.ahead, Option.some.injEq, Prod.mk.injEq] at h
  exact h.2.symm

theorem lift_eq_some {a : Option α} {x : α} :
    (liftM a : Reader α) c = some (x, c') ↔ a = some x ∧ c = c' := by
  show (a >>= fun x => some (x, c)) = some (x, c') ↔ _
  cases a <;> simp

theorem lift_looks (a : Option α) : Looks (liftM a : Reader α) :=
  fun _ _ _ h => (lift_eq_some.mp h).2.symm

/-! Tokens. -/

theorem sign_takes (text : String) : Reads declares true (sign text) := by
  refine .of fun _ => ?_
  refine .look (sees_looks text) fun _ => ?_
  exact .look (check_looks _) fun _ => .tail (token_takes _) rfl

theorem bareSign_takes (text : String) : Reads declares true (bareSign text) := by
  refine .of fun _ => ?_
  exact .look (sees_looks text) fun _ => .look (check_looks _) fun _ => .tail (bare_takes _) rfl

theorem bareSign_eq_some {text : String} {x : Unit} : bareSign text c = some (x, c') ↔
    text.toList.isPrefixOf c.rest = true ∧ c.ahead text.length = c' := by
  constructor
  · intro h
    obtain ⟨b, m, hsees, h⟩ := bind_eq_some.mp h
    obtain ⟨rfl, rfl⟩ := pure_eq_some.mp hsees
    obtain ⟨_, m, hcheck, h⟩ := bind_eq_some.mp h
    obtain ⟨hfront, rfl⟩ := check_eq_some.mp hcheck
    exact ⟨hfront, modify_eq_some.mp h⟩
  · rintro ⟨hfront, rfl⟩
    refine bind_eq_some.mpr ⟨true, c, pure_eq_some.mpr ⟨hfront, rfl⟩, ?_⟩
    exact bind_eq_some.mpr ⟨(), c, check_eq_some.mpr ⟨rfl, rfl⟩, modify_eq_some.mpr rfl⟩

theorem word_takes : Reads declares true word := by
  refine .of fun _ => ?_
  refine .look rest_looks fun _ => ?_
  exact .look (check_looks _) fun _ => .bind (token_takes _) fun _ => .done (by simp)

theorem keyword_takes (name : String) : Reads declares true (keyword name) :=
  .of fun _ => .bind word_takes fun _ => .tail (.look (check_looks _) fun _ => rfl) rfl

theorem plainName_takes : Reads declares true plainName :=
  .of fun _ => .bind word_takes fun _ => .look (check_looks _) fun _ => .done (by simp)

theorem semicolon_reads : Reads declares false semicolon := by
  refine .of fun _ => ?_
  refine .look (sees_looks _) fun _ => ?_
  refine .ite (.forget (.tail (token_takes 1) rfl)) ?_
  refine .tail (.look (.bind newline_looks fun _ => ?_) fun _ => rfl) rfl
  exact .bind rest_looks fun _ => .bind (sees_looks _) fun _ => check_looks _

/-! Putting readers together. -/

theorem attempt_ensures {P : Cursor → Prop} {p : Reader α} {Q : α → Cursor → Prop}
    (h : Ensures P p Q) : Ensures P (attempt p) fun x c => x.elim (P c) (Q · c) := by
  intro c x c' hc hx
  rcases orElse_eq_some hx with hx | hx
  · rw [map_eq_pure_bind] at hx
    obtain ⟨y, m, hy, hx⟩ := bind_eq_some.mp hx
    obtain ⟨rfl, rfl⟩ := pure_eq_some.mp hx
    exact h c y m hc hy
  · obtain ⟨rfl, rfl⟩ := pure_eq_some.mp hx
    exact hc

theorem taken_ensures {P : Cursor → Prop} {p : Reader α} {Q : α → Cursor → Prop}
    (h : Ensures P p Q) : Ensures P (Reader.taken p) fun b c => if b then ∃ x, Q x c else P c := by
  intro c b c' hc hb
  rcases orElse_eq_some hb with hb | hb
  · obtain ⟨x, m, hx, hb⟩ := bind_eq_some.mp hb
    obtain ⟨rfl, rfl⟩ := pure_eq_some.mp hb
    exact ⟨x, h c x m hc hx⟩
  · obtain ⟨rfl, rfl⟩ := pure_eq_some.mp hb
    exact hc

variable [Finds α] {p : Reader α}

theorem attempt_reads (hp : Reads declares t p) : Reads declares false (attempt p) := by
  refine .of fun _ c x c' hc hx => ?_
  have h := attempt_ensures (.tail hp rfl) c x c' hc hx
  cases x with
  | none => exact h
  | some y => exact h.weaken (List.Sublist.refl _)

theorem taken_reads (hp : Reads declares t p) : Reads declares false (Reader.taken p) :=
  .orPure (.of fun _ => .bind hp fun _ => .done (by simp)) rfl

theorem many_reads (hp : Reads declares t p) (fuel : Nat) :
    Reads declares false (many fuel p) := by
  induction fuel with
  | zero => exact .pure rfl
  | succ fuel ih =>
    exact .orPure (.of fun _ => .bind hp fun _ => .bind ih fun _ => .done (by simp)) rfl

omit [Finds α] in
/-- A repetition that finds nothing stays where it is. -/
theorem many_nil {fuel : Nat} (h : many fuel p c = some ([], c')) : c' = c := by
  cases fuel with
  | zero => exact (pure_eq_some.mp h).2.symm
  | succ fuel =>
    rcases orElse_eq_some h with h | h
    · obtain ⟨_, _, _, h⟩ := bind_eq_some.mp h
      obtain ⟨_, _, _, h⟩ := bind_eq_some.mp h
      exact absurd (pure_eq_some.mp h).1 (List.cons_ne_nil _ _)
    · exact (pure_eq_some.mp h).2.symm

omit [Finds α] in
/-- What holds of every result holds of all results of a repetition. -/
theorem many_all {R : α → Prop} (hR : ∀ c x c', p c = some (x, c') → R x) {fuel : Nat}
    {xs : List α} (h : many fuel p c = some (xs, c')) : ∀ x ∈ xs, R x := by
  induction fuel generalizing c xs c' with
  | zero =>
    obtain ⟨rfl, -⟩ := pure_eq_some.mp h
    simp
  | succ fuel ih =>
    rcases orElse_eq_some h with h | h
    · obtain ⟨x, m, hx, h⟩ := bind_eq_some.mp h
      obtain ⟨more, m', hmore, h⟩ := bind_eq_some.mp h
      obtain ⟨rfl, -⟩ := pure_eq_some.mp h
      intro y hy
      rcases List.mem_cons.mp hy with rfl | hy
      · exact hR c y m hx
      · exact ih hmore y hy
    · obtain ⟨rfl, -⟩ := pure_eq_some.mp h
      simp

/-! Nodes. -/

theorem node_eq_some {form : Form} {start : Nat} {kids : List Tree} {t : Tree} :
    node form start kids c = some (t, c') ↔ .node form ⟨start, c.last⟩ kids = t ∧ c = c' := by
  show some (Tree.node form ⟨start, c.last⟩ kids, c) = some (t, c') ↔ _
  simp

/-- A node around trees that were found since its beginning. -/
theorem Since.node {form : Form} {kids : List Tree} (h : Since declares o true ts c)
    (hsub : kids.Sublist ts) (hform : form ≠ .substitution) (hadmits : form.Admits kids)
    (hspelled : form.Spelled o.text ⟨o.start, c.last⟩)
    (hinside : declares = true → form = .other)
    (hdeclared : declares' = true ∨ form.isDeclarator = false) :
    Since declares' o true [Tree.node form ⟨o.start, c.last⟩ kids] c := by
  have hrow : Row form.declares o.start c.last kids := by
    cases declares with
    | true => rw [hinside rfl]; exact h.row.sublist hsub
    | false => exact (h.row.sublist hsub).loosen
  have hinner : form.inside ⟨o.start, c.last⟩ = ⟨o.start, c.last⟩ := by
    unfold Form.inside
    split
    · exact absurd rfl hform
    · rfl
  refine { h with
    row := row_single.mpr ⟨Nat.le_refl _, sound_node.mpr ?_, hdeclared, Nat.le_refl _⟩, spelled := ?_ }
  · refine ⟨h.taken rfl, fun e => absurd e hform, hadmits, ?_⟩
    rw [hinner]
    exact hrow
  · exact List.forall_mem_singleton.mpr (.node hspelled (h.sublist hsub).spelled)

/-- Forms whose trees are of any kind and whose text is too, though no variables are declared among
the trees. -/
def Form.isPlain : Form → Bool
  | .string | .identifier | .propertyName | .shorthand | .template | .substitution | .call
  | .declarator _ => false
  | _ => true

theorem Form.admits_of_isPlain {form : Form} (h : form.isPlain = true) (kids : List Tree) :
    form.Admits kids := by
  cases form <;> simp_all [Form.isPlain, Form.Admits]

theorem Form.spelled_of_isPlain {form : Form} (h : form.isPlain = true) (s : Span) : form.Spelled text s := by
  cases form <;> simp_all [Form.isPlain, Form.Spelled]

theorem Ensures.node {form : Form} {kids : List Tree} (hform : form.isPlain = true)
    (hsub : kids.Sublist ts) :
    Ensures (Since false o true ts) (node form o.start kids)
      fun t => Since declares o true (found t) := by
  intro c t c' hc h
  obtain ⟨rfl, rfl⟩ := node_eq_some.mp h
  refine hc.node hsub ?_ (Form.admits_of_isPlain hform kids) (Form.spelled_of_isPlain hform _)
    (by simp) (.inr ?_)
  · rintro rfl
    simp [Form.isPlain] at hform
  · cases form <;> simp_all [Form.isPlain, Form.isDeclarator]

/-- Variables may be declared among the trees of a node of no particular form. -/
theorem Ensures.nodeOther {kids : List Tree} (hsub : kids.Sublist ts) :
    Ensures (Since declares o true ts) (Reader.node .other o.start kids)
      fun t => Since declares' o true (found t) := by
  intro c t c' hc h
  obtain ⟨rfl, rfl⟩ := node_eq_some.mp h
  exact hc.node hsub (by simp) trivial trivial (fun _ => rfl) (.inr rfl)

theorem Ensures.nodeCall {kids : List Tree} (hsub : kids.Sublist ts)
    (hlast : ∀ t ∈ kids.getLast?, t.form = .arguments ∨ t.form = .template) :
    Ensures (Since false o true ts) (Reader.node .call o.start kids)
      fun t => Since declares o true (found t) := by
  intro c t c' hc h
  obtain ⟨rfl, rfl⟩ := node_eq_some.mp h
  exact hc.node hsub (by simp) (Form.admits_call hlast) trivial (by simp) (.inr rfl)

/-- A node around everything found, the first tree included, which it begins with. -/
theorem Ensures.nodeAt {form : Form} {kids : List Tree} {first : Tree}
    (hform : form.isPlain = true) (hsub : kids.Sublist (first :: ts)) :
    Ensures (Since false o taken (first :: ts)) (Reader.node form first.span.start kids)
      fun t => Since declares o true (found t) := by
  intro c t c' hc h
  exact (Ensures.node hform hsub c t c' hc.focus h).widen hc.row.start

/-! Where a tree stands. -/

def Reaching (o : Outset) (t : Tree) (c : Cursor) : Prop := t.span = ⟨o.start, c.last⟩

theorem node_reaching {P : Cursor → Prop} {form : Form} {kids : List Tree} :
    Ensures P (Reader.node form o.start kids) (Reaching o) := by
  intro c t c' _ h
  obtain ⟨rfl, rfl⟩ := node_eq_some.mp h
  rfl

/-! Names. -/

theorem word_eq_some {name : String} : word c = some (name, c') ↔
    nameAt c.rest ≠ [] ∧ name = String.ofList (nameAt c.rest) ∧
      (c.ahead (nameAt c.rest).length).settled = c' := by
  constructor
  · intro h
    obtain ⟨cs, m, hrest, h⟩ := bind_eq_some.mp h
    obtain ⟨rfl, rfl⟩ := pure_eq_some.mp hrest
    obtain ⟨_, m, hcheck, h⟩ := bind_eq_some.mp h
    obtain ⟨hname, rfl⟩ := check_eq_some.mp hcheck
    obtain ⟨_, m, htoken, h⟩ := bind_eq_some.mp h
    obtain rfl := modify_eq_some.mp htoken
    obtain ⟨rfl, rfl⟩ := pure_eq_some.mp h
    exact ⟨by simpa using hname, rfl, rfl⟩
  · rintro ⟨hname, rfl, rfl⟩
    refine bind_eq_some.mpr ⟨c.rest, c, pure_eq_some.mpr ⟨rfl, rfl⟩, ?_⟩
    refine bind_eq_some.mpr ⟨(), c, check_eq_some.mpr ⟨by simpa using hname, rfl⟩, ?_⟩
    exact bind_eq_some.mpr ⟨(), _, modify_eq_some.mpr rfl, pure_eq_some.mpr ⟨rfl, rfl⟩⟩

structure Named (o : Outset) (c : Cursor) : Prop where
  since : Since false o true [] c
  name : ∃ name, sliceChars? o.text ⟨o.start, c.last⟩ = some name ∧ IsName name

theorem word_named : Ensures (At o) word fun _ => Named o := by
  intro c x c' hc h
  have hsince : Since false o _ _ _ := hc.since.trans (word_takes o.text c x c' hc.stands h)
  obtain ⟨hname, -, rfl⟩ := word_eq_some.mp h
  refine ⟨hsince, nameAt c.rest, ?_, hname, c.rest, rfl⟩
  have hslice := hc.stands.slice_ahead (nameAt c.rest).length
  rwa [take_nameAt, ← hc.start] at hslice

theorem plainName_named : Ensures (At o) plainName fun _ => Named o :=
  .andThen word_named fun _ => .look (check_looks _) fun _ _ _ _ hc h => (pure_eq_some.mp h).2 ▸ hc

/-- A node for a name. -/
theorem Ensures.nodeName {form : Form}
    (hform : form = .identifier ∨ form = .propertyName) : Ensures (Named o) (Reader.node form o.start [])
      fun t => Since declares o true (found t) := by
  intro c t c' hc h
  obtain ⟨rfl, rfl⟩ := node_eq_some.mp h
  rcases hform with rfl | rfl
  · exact hc.since.node (List.nil_sublist _) (by simp) trivial hc.name (by simp) (.inr rfl)
  · exact hc.since.node (List.nil_sublist _) (by simp) trivial hc.name (by simp) (.inr rfl)

end ClassSort.Script
