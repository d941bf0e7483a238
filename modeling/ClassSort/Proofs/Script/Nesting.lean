import ClassSort.Script.Roots

/-!
What a parser may be relied on for. Trees lie inside the tree around them, in order and without
overlap. The grammar says the rest: those inside a substitution leave its delimiters alone, declared
variables are never parts of an expression, no root stands in the text of a string or of a template, and
what is called with ends a call. A script with errors may break these rules where the errors are.
-/

namespace ClassSort.Script

def Form.inside : Form → Span → Span
  | .substitution, s => ⟨s.start + 2, s.stop - 1⟩
  | _, s => s

def Form.isDeclarator : Form → Bool
  | .declarator _ => true
  | _ => false

def Form.declares : Form → Bool
  | .other | .broken => true
  | _ => false

def Form.kept (form : Form) (trees : List Tree) : List Tree := trees.filter (form.keeps ·.form)

mutual

def Tree.isBarren : Tree → Bool
  | node form _ trees => !form.isRoot && Tree.areBarren trees

def Tree.areBarren : List Tree → Bool
  | [] => true
  | t :: ts => t.isBarren && Tree.areBarren ts

end

theorem Tree.plainAll_eq (form : Form) (trees : List Tree) :
    plainAll form trees = (form.kept trees).map plain := by
  induction trees with
  | nil => rfl
  | cons t ts ih =>
    rw [plainAll, Form.kept, List.filter_cons]
    split
    · rw [List.map_cons, ih, Form.kept]
    · exact ih

@[simp] theorem Tree.plain_form (t : Tree) : t.plain.form = t.form := by cases t; rfl

@[simp] theorem Tree.plain_span (t : Tree) : t.plain.span = t.span := by cases t; rfl

@[simp] theorem Tree.plain_children (t : Tree) : t.plain.children = (t.form.kept t.children).map plain := by
  obtain ⟨form, s, trees⟩ := t
  exact plainAll_eq form trees

theorem Form.kept_sublist (form : Form) (trees : List Tree) : (form.kept trees).Sublist trees :=
  List.filter_sublist

def Form.Admits : Form → List Tree → Prop
  | .string, trees => ∀ t ∈ trees, t.isBarren = true
  | .template, trees => ∀ t ∈ trees, t.form = .substitution ∨ t.isBarren = true
  | .call, trees => ∀ t ∈ (Form.call.kept trees).getLast?, t.form = .arguments ∨ t.form = .template
  | _, _ => True

theorem Form.admits_call {trees : List Tree}
    (h : ∀ t ∈ trees.getLast?, t.form = .arguments ∨ t.form = .template) : Form.call.Admits trees := by
  intro t ht
  cases hend : trees.getLast? with
  | none =>
    rw [List.getLast?_eq_none_iff.mp hend] at ht
    cases ht
  | some last =>
    have hlast := h last hend
    obtain ⟨front, rfl⟩ := List.getLast?_eq_some_iff.mp hend
    have hkeeps : Form.call.keeps last.form = true := by
      rcases hlast with hform | hform <;> rw [hform] <;> rfl
    have hkept : [last].filter (fun t => call.keeps t.form) = [last] := List.filter_cons_of_pos hkeeps
    rw [Form.kept, List.filter_append, hkept, List.getLast?_concat] at ht
    cases ht
    exact hlast

namespace Tree

mutual

def Sound : Tree → Prop
  | node form s trees => s.start ≤ s.stop ∧ (form = .substitution → s.start + 3 ≤ s.stop) ∧
    form.Admits trees ∧ Row form.declares (form.inside s).start (form.inside s).stop trees

/-- Sound trees that follow one another between two positions; `declares` tells whether variables
may be declared among them. -/
def Row (declares : Bool) : Nat → Nat → List Tree → Prop
  | _, _, [] => True
  | start, stop, t :: ts => start ≤ t.span.start ∧ Sound t ∧
    (declares = true ∨ t.form.isDeclarator = false) ∧ t.span.stop ≤ stop ∧ Row declares t.span.stop stop ts

end

variable {declares : Bool} {a b c d : Nat} {t : Tree} {ts us : List Tree}

@[simp] theorem row_nil : Row declares a b [] := by rw [Row]; trivial

theorem row_cons : Row declares a b (t :: ts) ↔ a ≤ t.span.start ∧ Sound t ∧
    (declares = true ∨ t.form.isDeclarator = false) ∧ t.span.stop ≤ b ∧
    Row declares t.span.stop b ts := by
  rw [Row]

theorem Sound.ordered (h : Sound t) : t.span.start ≤ t.span.stop := by
  obtain ⟨form, s, trees⟩ := t
  rw [Sound] at h
  exact h.1

theorem Row.start (h : Row declares a b (t :: ts)) : a ≤ t.span.start := (row_cons.mp h).1

theorem Row.start_le (h : Row declares a b ts) : ∀ t ∈ ts, a ≤ t.span.start := by
  induction ts generalizing a with
  | nil => simp
  | cons t ts ih =>
    obtain ⟨hs, ht, -, -, hrest⟩ := row_cons.mp h
    exact List.forall_mem_cons.mpr ⟨hs, fun u hu => Nat.le_trans hs (Nat.le_trans ht.ordered (ih hrest u hu))⟩

theorem Row.stop_le (h : Row declares a b ts) : ∀ t ∈ ts, t.span.stop ≤ b := by
  induction ts generalizing a with
  | nil => simp
  | cons u us ih =>
    obtain ⟨-, -, -, hend, hrest⟩ := row_cons.mp h
    exact List.forall_mem_cons.mpr ⟨hend, ih hrest⟩

theorem Row.focus (h : Row declares a b (t :: ts)) : Row declares t.span.start b (t :: ts) := by
  obtain ⟨-, ht, hd, he, hrest⟩ := row_cons.mp h
  exact row_cons.mpr ⟨Nat.le_refl _, ht, hd, he, hrest⟩

theorem Row.weaken (h : Row declares a b ts) (hstart : c ≤ a) (hstop : b ≤ d) :
    Row declares c d ts := by
  induction ts generalizing a c with
  | nil => exact row_nil
  | cons t ts ih =>
    obtain ⟨hs, ht, hd, he, hrest⟩ := row_cons.mp h
    exact row_cons.mpr ⟨by omega, ht, hd, by omega, ih hrest (Nat.le_refl _)⟩

theorem Row.loosen (h : Row false a b ts) : Row declares a b ts := by
  induction ts generalizing a with
  | nil => exact row_nil
  | cons t ts ih =>
    obtain ⟨hs, ht, hd, he, hrest⟩ := row_cons.mp h
    exact row_cons.mpr ⟨hs, ht, .inr (hd.resolve_left (by simp)), he, ih hrest⟩

theorem Row.append (hts : Row declares a b ts) (hus : Row declares c d us) (hac : a ≤ c)
    (hbc : b ≤ c) (hbd : b ≤ d) : Row declares a d (ts ++ us) := by
  induction ts generalizing a with
  | nil => exact hus.weaken hac (Nat.le_refl _)
  | cons t ts ih =>
    obtain ⟨hs, ht, hd, he, hrest⟩ := row_cons.mp hts
    exact row_cons.mpr ⟨hs, ht, hd, by omega, ih hrest (by omega)⟩

theorem Row.sublist (h : Row declares a b us) (hsub : ts.Sublist us) : Row declares a b ts := by
  induction hsub generalizing a with
  | slnil => exact h
  | cons t _ ih =>
    obtain ⟨hs, ht, -, -, hrest⟩ := row_cons.mp h
    exact (ih hrest).weaken (Nat.le_trans hs ht.ordered) (Nat.le_refl _)
  | cons_cons t _ ih =>
    obtain ⟨hs, ht, hd, he, hrest⟩ := row_cons.mp h
    exact row_cons.mpr ⟨hs, ht, hd, he, ih hrest⟩

/-- The last trees of a row may be replaced where they stand. -/
theorem Row.replace {vs : List Tree} (h : Row declares a b (ts ++ us))
    (hus : ∀ m, a ≤ m → Row declares m b us → Row declares m b vs) :
    Row declares a b (ts ++ vs) := by
  induction ts generalizing a with
  | nil => exact hus a (Nat.le_refl _) h
  | cons t ts ih =>
    obtain ⟨hs, ht, hd, he, hrest⟩ := row_cons.mp h
    refine row_cons.mpr ⟨hs, ht, hd, he, ih hrest fun m hm => hus m ?_⟩
    exact Nat.le_trans hs (Nat.le_trans ht.ordered hm)

theorem Row.split (h : Row declares a b (ts ++ t :: us)) : Row declares a t.span.stop (ts ++ [t]) ∧
    Row declares t.span.stop b us ∧ t.span.stop ≤ b := by
  induction ts generalizing a with
  | nil =>
    obtain ⟨hs, ht, hd, he, hrest⟩ := row_cons.mp h
    exact ⟨row_cons.mpr ⟨hs, ht, hd, Nat.le_refl _, row_nil⟩, hrest, he⟩
  | cons u ts ih =>
    obtain ⟨hs, hu, hd, he, hrest⟩ := row_cons.mp h
    obtain ⟨hts, hus, hstop⟩ := ih hrest
    have hbehind : u.span.stop ≤ t.span.stop := by
      have hlast := hts.sublist (List.sublist_append_right ts [t])
      obtain ⟨hstart, ht, -⟩ := row_cons.mp hlast
      exact Nat.le_trans hstart ht.ordered
    exact ⟨row_cons.mpr ⟨hs, hu, hd, hbehind, hts⟩, hus, hstop⟩

theorem row_single : Row declares a b [t] ↔ a ≤ t.span.start ∧ Sound t ∧
    (declares = true ∨ t.form.isDeclarator = false) ∧ t.span.stop ≤ b := by
  rw [row_cons]
  simp

theorem sound_node {form : Form} {s : Span} : Sound (node form s ts) ↔
    s.start ≤ s.stop ∧ (form = .substitution → s.start + 3 ≤ s.stop) ∧ form.Admits ts ∧
      Row form.declares (form.inside s).start (form.inside s).stop ts := by
  rw [Sound]

theorem Row.sound (h : Row declares a b ts) : ∀ t ∈ ts, Sound t := by
  induction ts generalizing a with
  | nil => simp
  | cons t ts ih =>
    obtain ⟨-, ht, -, -, hrest⟩ := row_cons.mp h
    intro u hu
    rcases List.mem_cons.mp hu with rfl | hu
    · exact ht
    · exact ih hrest u hu

mutual

theorem Sound.wellNested : ∀ t : Tree, Sound t → WellNested t
  | node form s trees => by
    intro h
    obtain ⟨hs, hsub, -, hrow⟩ := sound_node.mp h
    rw [WellNested]
    refine ⟨hs, ?_⟩
    have hle : s.start ≤ (form.inside s).start ∧ (form.inside s).stop ≤ s.stop ∧
        (form.inside s).start ≤ (form.inside s).stop := by
      unfold Form.inside
      split
      · have := hsub rfl
        dsimp only
        omega
      · exact ⟨Nat.le_refl _, Nat.le_refl _, hs⟩
    exact Row.wellNested trees (hrow.weaken hle.1 hle.2.1) hs

theorem Row.wellNested : ∀ (ts : List Tree) {declares : Bool} {a b : Nat},
    Row declares a b ts → a ≤ b → WellNestedFrom a b ts
  | [], _, a, b => by
    intro _ hab
    rw [WellNestedFrom]
    exact hab
  | t :: ts, _, a, b => by
    intro h _
    obtain ⟨hs, ht, -, he, hrest⟩ := row_cons.mp h
    rw [WellNestedFrom]
    exact ⟨hs, Sound.wellNested t ht, Row.wellNested ts hrest he⟩

end

theorem WellNestedFrom.ordered : ∀ {ts : List Tree} {a b : Nat}, WellNestedFrom a b ts → a ≤ b
  | [], a, b, h => by rwa [WellNestedFrom] at h
  | t :: ts, a, b, h => by
    rw [WellNestedFrom] at h
    obtain ⟨hstart, ht, hrest⟩ := h
    obtain ⟨form, s, trees⟩ := t
    rw [WellNested] at ht
    exact Nat.le_trans hstart (Nat.le_trans ht.1 hrest.ordered)

/-- A row stands wherever its trees do. -/
theorem Row.narrow (h : Row declares a b ts) (hts : ∀ t ∈ ts, c ≤ t.span.start ∧ t.span.stop ≤ d) :
    Row declares c d ts := by
  induction ts generalizing a c with
  | nil => exact row_nil
  | cons t ts ih =>
    obtain ⟨-, ht, hd, -, hrest⟩ := row_cons.mp h
    obtain ⟨⟨hstart, hstop⟩, hothers⟩ := List.forall_mem_cons.mp hts
    exact row_cons.mpr ⟨hstart, ht, hd, hstop, ih hrest fun u hu => ⟨Row.start_le hrest u hu, (hothers u hu).2⟩⟩

end Tree

/-- What the grammar says of a tree of this form, apart from the trees inside its trees. -/
structure Form.Regular (form : Form) (s : Span) (trees : List Tree) : Prop where
  admits : form.Admits trees
  declared : form.declares = true ∨ ∀ t ∈ trees, t.form.isDeclarator = false
  delimited : form = .substitution → s.start + 3 ≤ s.stop ∧
    ∀ t ∈ trees, s.start + 2 ≤ t.span.start ∧ t.span.stop ≤ s.stop - 1

inductive Tree.Regular : Tree → Prop where
  | node {form : Form} {s : Span} {trees : List Tree} : form.Regular s trees → (∀ t ∈ trees, t.Regular) →
      (Tree.node form s trees).Regular

namespace Tree

mutual

theorem sound_of_regular : ∀ {t : Tree}, WellNested t → t.Regular → Sound t
  | node form s trees, hnested, .node hform htrees => by
    rw [WellNested] at hnested
    obtain ⟨hs, hinside⟩ := hnested
    have hrow : Row form.declares s.start s.stop trees := row_of_regular hinside htrees hform.declared
    refine sound_node.mpr ⟨hs, fun hsub => (hform.delimited hsub).1, hform.admits, ?_⟩
    unfold Form.inside
    split
    · exact hrow.narrow (hform.delimited rfl).2
    · exact hrow

/-- Well nested trees that keep to the grammar are sound. -/
theorem row_of_regular : ∀ {ts : List Tree} {declares : Bool} {a b : Nat}, WellNestedFrom a b ts →
    (∀ t ∈ ts, t.Regular) → (declares = true ∨ ∀ t ∈ ts, t.form.isDeclarator = false) → Row declares a b ts
  | [], _, _, _, _, _, _ => row_nil
  | t :: ts, declares, a, b, hnested, hregular, hdeclared => by
    rw [WellNestedFrom] at hnested
    obtain ⟨hstart, ht, hrest⟩ := hnested
    obtain ⟨hfirst, hothers⟩ := List.forall_mem_cons.mp hregular
    refine row_cons.mpr ⟨hstart, sound_of_regular ht hfirst, ?_, hrest.ordered, row_of_regular hrest hothers ?_⟩
    · exact hdeclared.imp_right fun h => h t List.mem_cons_self
    · exact hdeclared.imp_right fun h u hu => h u (List.mem_cons_of_mem _ hu)

end

theorem Row.declared (h : Row declares a b ts) : declares = true ∨ ∀ t ∈ ts, t.form.isDeclarator = false := by
  induction ts generalizing a with
  | nil => exact .inr (by simp)
  | cons t ts ih =>
    obtain ⟨-, -, ht, -, hrest⟩ := row_cons.mp h
    rcases ht with hdeclares | ht
    · exact .inl hdeclares
    · exact (ih hrest).imp_right fun hts => List.forall_mem_cons.mpr ⟨ht, hts⟩

mutual

theorem Sound.regular : ∀ {t : Tree}, Sound t → t.Regular
  | node form s trees, h => by
    obtain ⟨-, hsize, hadmits, hrow⟩ := sound_node.mp h
    refine .node ⟨hadmits, hrow.declared, ?_⟩ (Row.regular hrow)
    rintro rfl
    exact ⟨hsize rfl, fun t ht => ⟨hrow.start_le t ht, hrow.stop_le t ht⟩⟩

theorem Row.regular : ∀ {ts : List Tree} {declares : Bool} {a b : Nat},
    Row declares a b ts → ∀ t ∈ ts, t.Regular
  | [], _, _, _, _ => by simp
  | t :: ts, _, _, _, h => by
    obtain ⟨-, ht, -, -, hrest⟩ := row_cons.mp h
    exact List.forall_mem_cons.mpr ⟨ht.regular, Row.regular hrest⟩

end

end Tree

end ClassSort.Script
