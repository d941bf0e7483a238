import ClassSort.Proofs.Script.Nesting
import ClassSort.Proofs.Source.Placed
import ClassSort.Script.Roots

/-!
Calls and declared variables are roots wherever they stand, and collection does not go down into
them. So what is collected below an expression and what is collected from the roots inside it do
not overlap, whatever the forms of the trees in between.
-/

namespace ClassSort.Script

open Script.Tree Candidate

structure View where
  source : String
  options : SortOptions
  origin : Origin

namespace View

variable (v : View)

def own (t : Tree) : List Candidate := visit v.source v.options (expression v.origin t.plain)

def below (t : Tree) : List Candidate := collect v.source v.options (treeRoots v.origin t)

def belowAll (ts : List Tree) : List Candidate :=
  collect v.source v.options (forestRoots v.origin ts)

def named (t : Tree) : List Candidate := visit v.source v.options (key v.origin t.plain)

def entered (t : Tree) : List Candidate :=
  visitProperties v.source v.options (properties v.origin [t.plain])

def filled (t : Tree) : List Candidate :=
  visitAll v.source v.options (substitutions v.origin [t.plain])

def given (t : Tree) : List Candidate :=
  visitAll v.source v.options (expressions v.origin t.plain.children)

/-- Candidates in a range of the script. -/
def Stands (a b : Nat) (cs : List Candidate) : Prop :=
  Placed (a + v.origin.offset) (b + v.origin.offset) cs

variable {v} {a b m : Nat} {declares : Bool} {t : Tree} {ts us : List Tree} {s : Span} {form : Form}
  {x y : List Candidate}

theorem Stands.weaken (h : v.Stands m b x) (ha : a ≤ m) : v.Stands a b x :=
  Placed.weaken h (Nat.add_le_add_right ha _) (Nat.le_refl _)

@[simp] theorem belowAll_nil : v.belowAll [] = [] := by simp [belowAll, forestRoots, collect]

theorem belowAll_cons : v.belowAll (t :: ts) = v.below t ++ v.belowAll ts := by
  simp [belowAll, below, forestRoots, collect]

theorem below_node : v.below (node form s ts) =
    (if form.isRoot then ofRoot v.source v.options (expression v.origin (node form s (plainAll form ts))) else []) ++
      v.belowAll ts := by
  rw [below, treeRoots]
  split <;> simp [collect, belowAll]

/-- The ways in which a tree may be taken. -/
structure Reaches (v : View) (t : Tree) : Prop where
  below : v.Stands t.span.start t.span.stop (v.below t)
  own : t.form.isDeclarator = false → v.Stands t.span.start t.span.stop (v.own t ++ v.below t)
  named : t.form.isDeclarator = false → v.Stands t.span.start t.span.stop (v.named t ++ v.below t)
  entered : t.form.isDeclarator = false → v.Stands t.span.start t.span.stop (v.entered t ++ v.below t)
  filled : t.form = .substitution →
    v.Stands (t.span.start + 2) (t.span.stop - 1) (v.filled t ++ v.below t)
  given : t.form = .arguments → v.Stands t.span.start t.span.stop (v.given t ++ v.below t)

/-- Each tree that is taken may be taken in a way of its own. -/
theorem row_stands {xs : List (List Candidate)} (hsub : us.Sublist ts) (hrow : Row declares a b ts)
    (hreach : ∀ t ∈ ts, v.Reaches t)
    (h : List.Forall₂ (fun t x => v.Stands t.span.start t.span.stop (x ++ v.below t)) us xs) :
    v.Stands a b (xs.flatten ++ v.belowAll ts) := by
  induction hsub generalizing a xs with
  | slnil =>
    cases h
    exact belowAll_nil ▸ Placed.nil
  | @cons us ts t _ ih =>
    obtain ⟨hstart, hsound, -, hstop, hrest⟩ := row_cons.mp hrow
    obtain ⟨ht, hothers⟩ := List.forall_mem_cons.mp hreach
    have hordered := hsound.ordered
    have hfirst : v.Stands a t.span.stop ([] ++ v.below t) := ht.below.weaken hstart
    rw [belowAll_cons]
    exact Placed.zip hfirst (ih hrest hothers h) (by omega) (by omega)
  | @cons_cons us ts t _ ih =>
    obtain ⟨hstart, hsound, -, hstop, hrest⟩ := row_cons.mp hrow
    obtain ⟨-, hothers⟩ := List.forall_mem_cons.mp hreach
    cases h with
    | @cons _ x _ xs hx hxs =>
      have hordered := hsound.ordered
      rw [List.flatten_cons, belowAll_cons]
      exact Placed.zip (hx.weaken hstart) (ih hrest hothers hxs) (by omega) (by omega)

section

variable (hsub : us.Sublist ts) (hrow : Row declares a b ts) (h : ∀ t ∈ ts, v.Reaches t)
include hsub hrow h

theorem map_stands {f : Tree → List Candidate}
    (hf : ∀ t ∈ us, v.Stands t.span.start t.span.stop (f t ++ v.below t)) :
    v.Stands a b ((us.map f).flatten ++ v.belowAll ts) :=
  row_stands hsub hrow h (List.forall₂_map_right_iff.mpr (List.forall₂_same.mpr hf))

/-- Only one tree is taken. -/
theorem one_stands (before : List Tree) {after : List Tree} (hus : us = before ++ t :: after)
    (hx : v.Stands t.span.start t.span.stop (x ++ v.below t)) : v.Stands a b (x ++ v.belowAll ts) := by
  subst hus
  have hnone {vs : List Tree} (hvs : ∀ t ∈ vs, t ∈ ts) :
      List.Forall₂ (fun t x => v.Stands t.span.start t.span.stop (x ++ v.below t)) vs (vs.map fun _ => []) :=
    List.forall₂_map_right_iff.mpr (List.forall₂_same.mpr fun t ht => (h t (hvs t ht)).below)
  have hbefore := hnone fun t ht => hsub.subset (List.mem_append_left _ ht)
  have hafter := hnone fun t ht => hsub.subset (List.mem_append_right _ (List.mem_cons_of_mem _ ht))
  have hall := row_stands hsub hrow h (List.rel_append hbefore (.cons hx hafter))
  simpa using hall

end

theorem belowAll_stands (hrow : Row declares a b ts) (h : ∀ t ∈ ts, v.Reaches t) :
    v.Stands a b (v.belowAll ts) := by
  have hnone := row_stands (List.nil_sublist ts) hrow h .nil
  simpa using hnone

theorem visitAll_expressions :
    visitAll v.source v.options (expressions v.origin (ts.map plain)) = (ts.map v.own).flatten := by
  induction ts with
  | nil => simp [expressions, visitAll]
  | cons t ts ih => simp [expressions, visitAll, ih, own]

theorem Row.plain (h : Row false a b ts) : ∀ t ∈ ts, t.form.isDeclarator = false := by
  induction ts generalizing a with
  | nil => simp
  | cons t ts ih =>
    obtain ⟨-, -, hplain, -, hrest⟩ := row_cons.mp h
    intro u hu
    rcases List.mem_cons.mp hu with rfl | hu
    · exact hplain.resolve_left (by simp)
    · exact ih hrest u hu

theorem properties_cons : properties v.origin (t :: ts) =
    properties v.origin [t] ++ properties v.origin ts := by
  rw [properties.eq_def]
  split <;> simp_all [properties]

theorem visitProperties_append {ps qs : List Property} : visitProperties v.source v.options (ps ++ qs) =
    visitProperties v.source v.options ps ++ visitProperties v.source v.options qs := by
  induction ps with
  | nil => simp [visitProperties]
  | cons p ps ih => cases p <;> simp [visitProperties, ih]

theorem visitProperties_properties : visitProperties v.source v.options
    (properties v.origin (ts.map plain)) = (ts.map v.entered).flatten := by
  induction ts with
  | nil => simp [properties, visitProperties]
  | cons t ts ih =>
    rw [List.map_cons, properties_cons, visitProperties_append, ih, List.map_cons, List.flatten_cons]
    rfl

theorem substitutions_cons : substitutions v.origin (t :: ts) =
    substitutions v.origin [t] ++ substitutions v.origin ts := by
  obtain ⟨form, s, kids⟩ := t
  cases kids <;> simp [substitutions]

theorem visitAll_append {ns ms : List Node} : visitAll v.source v.options (ns ++ ms) =
    visitAll v.source v.options ns ++ visitAll v.source v.options ms := by
  induction ns with
  | nil => simp [visitAll]
  | cons n ns ih => simp [visitAll, ih]

mutual

theorem treeRoots_of_isBarren {o : Origin} : ∀ {t : Tree}, t.isBarren = true → treeRoots o t = []
  | node form _ trees, h => by
    simp only [isBarren, Bool.and_eq_true, Bool.not_eq_true'] at h
    rw [treeRoots, forestRoots_of_areBarren h.2, h.1]
    rfl

theorem forestRoots_of_areBarren {o : Origin} : ∀ {ts : List Tree}, areBarren ts = true → forestRoots o ts = []
  | [], _ => rfl
  | t :: ts, h => by
    simp only [areBarren, Bool.and_eq_true] at h
    rw [forestRoots, treeRoots_of_isBarren h.1, forestRoots_of_areBarren h.2]
    rfl

end

theorem below_of_isBarren (h : t.isBarren = true) : v.below t = [] := by
  rw [below, treeRoots_of_isBarren h]
  rfl

theorem belowAll_of_barren (h : ∀ t ∈ ts, t.isBarren = true) : v.belowAll ts = [] := by
  induction ts with
  | nil => exact belowAll_nil
  | cons t ts ih =>
    obtain ⟨ht, hrest⟩ := List.forall_mem_cons.mp h
    rw [belowAll_cons, below_of_isBarren ht, ih hrest]
    rfl

/-- No root stands between the substitutions of a template. -/
theorem belowAll_kept (h : Form.template.Admits ts) : v.belowAll (Form.template.kept ts) = v.belowAll ts := by
  induction ts with
  | nil => rfl
  | cons t ts ih =>
    obtain ⟨ht, hrest⟩ := List.forall_mem_cons.mp h
    rw [Form.kept, List.filter_cons, belowAll_cons, ← ih hrest]
    split
    · exact belowAll_cons
    · next hkeeps =>
      rcases ht with hform | hbarren
      · exact absurd (by rw [hform]; rfl) hkeeps
      · rw [below_of_isBarren hbarren]
        rfl

theorem kept_template (ts : List Tree) : ∀ t ∈ Form.template.kept ts, t.form = .substitution := by
  intro t ht
  have hkeeps := (List.mem_filter.mp ht).2
  cases hform : t.form <;> simp_all [Form.keeps]

/-- Chunks stand around what is collected from the substitutions between them. -/
theorem template_stands {start stop : Nat} (hrow : Row false a b ts) (hstart : start ≤ a)
    (hstop : b ≤ stop) (hle : start ≤ stop) (hforms : ∀ t ∈ ts, t.form = .substitution)
    (h : ∀ t ∈ ts, v.Reaches t) : v.Stands start stop
      ((visitAll v.source v.options (substitutions v.origin (ts.map plain)) ++
        (chunks v.origin stop start (ts.map plain)).flatMap (ofChunk v.source)) ++ v.belowAll ts) := by
  induction ts generalizing a start with
  | nil =>
    simp only [List.map_nil, substitutions, visitAll, chunks, List.flatMap_cons, List.flatMap_nil,
      List.append_nil, List.nil_append, belowAll_nil]
    exact ofChunk_placed (Nat.le_refl _) (Nat.le_refl _)
  | cons t ts ih =>
    obtain ⟨hbegin, hsound, -, hend, hrest⟩ := row_cons.mp hrow
    have hform := hforms t List.mem_cons_self
    have hsize : t.span.start + 3 ≤ t.span.stop := by
      obtain ⟨form, s, kids⟩ := t
      exact (sound_node.mp hsound).2.1 hform
    have hbehind : t.span.stop - 1 ≤ t.span.stop := Nat.sub_le _ 1
    have hrest := ih (hrest.weaken hbehind (Nat.le_refl _)) (Nat.le_refl _) (by omega)
      (fun u hu => hforms u (List.mem_cons_of_mem _ hu)) fun u hu => h u (List.mem_cons_of_mem _ hu)
    have hchunk : v.Stands start (t.span.start + 2)
        (ofChunk v.source (v.origin.chunk start (t.span.start + 2) t.span.start)) :=
      ofChunk_placed (Nat.le_refl _) (Nat.le_refl _)
    have hfilled := (h t List.mem_cons_self).filled hform
    have hall := Placed.append hchunk (Placed.append hfilled hrest (by omega) (by omega))
      (by omega) (by omega)
    rw [List.map_cons, substitutions_cons, visitAll_append, chunks, List.flatMap_cons, belowAll_cons,
      plain_span]
    refine Placed.perm hall (List.perm_iff_count.mpr fun c => ?_)
    simp only [List.count_append, filled]
    omega

theorem invocation_visit (s : Span) (called : Callee) (ts : List Tree) :
    visit v.source v.options (invocation v.origin s called ts) = [] := by
  induction ts with
  | nil => simp [invocation, visit]
  | cons t ts ih =>
    obtain ⟨form, span, kids⟩ := t
    rw [invocation.eq_def]
    split <;> simp_all [visit]

section

variable (hrow : Row form.declares s.start s.stop ts) (hadmits : form.Admits ts) (h : ∀ t ∈ ts, v.Reaches t)
include hrow h

/-- The trees that count in an expression are no declared variables. -/
theorem kept_own (hplain : form.declares = false) :
    ∀ t ∈ form.kept ts, v.Stands t.span.start t.span.stop (v.own t ++ v.below t) := by
  rw [hplain] at hrow
  intro t ht
  have hmem := (form.kept_sublist ts).subset ht
  exact (h t hmem).own (Row.plain hrow t hmem)

include hadmits

theorem own_stands (hs : s.start ≤ s.stop) (hform : form.isDeclarator = false) :
    v.Stands s.start s.stop (v.own (node form s ts) ++ v.belowAll ts) := by
  have hall := belowAll_stands hrow h
  have hown := kept_own hrow h
  have hsub := form.kept_sublist ts
  unfold own
  rw [Tree.plain, plainAll_eq]
  unfold expression
  split
  · next heq =>
    obtain ⟨rfl, rfl, hmap⟩ := Tree.node.inj heq
    obtain ⟨inner, rest, hkept, rfl, -⟩ := List.map_eq_cons_iff.mp hmap
    exact one_stands hsub hrow h [] hkept (hown rfl inner (by rw [hkept]; exact List.mem_cons_self))
  · next heq =>
    obtain ⟨rfl, rfl, -⟩ := Tree.node.inj heq
    rw [belowAll_of_barren hadmits, List.append_nil, visit]
    exact ofLiteral_placed (Nat.le_refl _) (Nat.le_refl _)
  · simpa [visit] using hall
  · next heq =>
    obtain ⟨rfl, rfl, rfl⟩ := Tree.node.inj heq
    rw [visit, visitAll_expressions]
    exact map_stands hsub hrow h (hown rfl)
  · next heq =>
    obtain ⟨rfl, rfl, hmap⟩ := Tree.node.inj heq
    obtain ⟨left, _, hkept, rfl, hrest⟩ := List.map_eq_cons_iff.mp hmap
    obtain ⟨right, _, rfl, rfl, hnone⟩ := List.map_eq_cons_iff.mp hrest
    obtain rfl := List.map_eq_nil_iff.mp hnone
    have hown := hown rfl
    rw [hkept] at hsub hown
    have hboth := row_stands hsub hrow h (.cons (hown left (by simp)) (.cons (hown right (by simp)) .nil))
    simpa [visit, own] using hboth
  · next heq =>
    obtain ⟨rfl, rfl, hmap⟩ := Tree.node.inj heq
    obtain ⟨left, _, hkept, rfl, hrest⟩ := List.map_eq_cons_iff.mp hmap
    obtain ⟨right, _, rfl, rfl, hnone⟩ := List.map_eq_cons_iff.mp hrest
    obtain rfl := List.map_eq_nil_iff.mp hnone
    rw [visit]
    exact one_stands hsub hrow h [left] hkept (hown rfl right (by rw [hkept]; simp))
  · next heq =>
    obtain ⟨rfl, rfl, hmap⟩ := Tree.node.inj heq
    obtain ⟨test, _, hkept, rfl, hrest⟩ := List.map_eq_cons_iff.mp hmap
    obtain ⟨consequent, _, rfl, rfl, hlast⟩ := List.map_eq_cons_iff.mp hrest
    obtain ⟨alternate, _, rfl, rfl, hnone⟩ := List.map_eq_cons_iff.mp hlast
    obtain rfl := List.map_eq_nil_iff.mp hnone
    have hown := hown rfl
    rw [hkept] at hsub hown
    have hboth : v.Stands s.start s.stop ([[], v.own consequent, v.own alternate].flatten ++ v.belowAll ts) :=
      row_stands hsub hrow h (.cons (h test (hsub.subset (by simp))).below
        (.cons (hown consequent (by simp)) (.cons (hown alternate (by simp)) .nil)))
    simpa [visit, own] using hboth
  · next heq =>
    obtain ⟨rfl, rfl, rfl⟩ := Tree.node.inj heq
    rw [visit, visitProperties_properties]
    refine map_stands hsub hrow h fun t ht => ?_
    have hmem := hsub.subset ht
    exact (h t hmem).entered (Row.plain hrow t hmem)
  · next heq =>
    obtain ⟨rfl, rfl, rfl⟩ := Tree.node.inj heq
    rw [visit, ← belowAll_kept hadmits]
    exact template_stands (hrow.sublist hsub) (Nat.le_refl _) (Nat.le_refl _) hs (kept_template ts)
      fun t ht => h t (hsub.subset ht)
  · simpa [invocation_visit] using hall
  · next heq =>
    obtain ⟨rfl, -, -⟩ := Tree.node.inj heq
    simp [Form.isDeclarator] at hform
  · simpa [visit] using hall

theorem named_stands : v.Stands s.start s.stop (v.named (node form s ts) ++ v.belowAll ts) := by
  have hall := belowAll_stands hrow h
  have hown := kept_own hrow h
  unfold named
  rw [Tree.plain, plainAll_eq]
  unfold key
  split
  · simpa [visit] using hall
  · next heq =>
    obtain ⟨rfl, rfl, -⟩ := Tree.node.inj heq
    rw [belowAll_of_barren hadmits, List.append_nil, visit]
    exact ofLiteral_placed (Nat.le_refl _) (Nat.le_refl _)
  · next heq =>
    obtain ⟨rfl, rfl, hmap⟩ := Tree.node.inj heq
    obtain ⟨inner, rest, hkept, rfl, -⟩ := List.map_eq_cons_iff.mp hmap
    exact one_stands (Form.kept_sublist _ ts) hrow h [] hkept
      (hown rfl inner (by rw [hkept]; exact List.mem_cons_self))
  · simpa [visit] using hall

end

theorem entered_stands (hrow : Row form.declares s.start s.stop ts) (h : ∀ t ∈ ts, v.Reaches t) :
    v.Stands s.start s.stop (v.entered (node form s ts) ++ v.belowAll ts) := by
  have hall := belowAll_stands hrow h
  have hsub := form.kept_sublist ts
  unfold entered
  rw [Tree.plain, plainAll_eq, properties.eq_def]
  split
  · simpa [visitProperties] using hall
  · next heq =>
    obtain ⟨hnode, rfl⟩ := List.cons.inj heq
    obtain ⟨rfl, rfl, hmap⟩ := Tree.node.inj hnode
    obtain ⟨name, _, hkept, rfl, hrest⟩ := List.map_eq_cons_iff.mp hmap
    obtain ⟨value, _, rfl, rfl, hnone⟩ := List.map_eq_cons_iff.mp hrest
    obtain rfl := List.map_eq_nil_iff.mp hnone
    have hplain := Row.plain hrow
    rw [hkept] at hsub
    have hname := hsub.subset (show name ∈ [name, value] by simp)
    have hvalue := hsub.subset (show value ∈ [name, value] by simp)
    have hboth := row_stands hsub hrow h (.cons ((h name hname).named (hplain name hname))
      (.cons ((h value hvalue).own (hplain value hvalue)) .nil))
    have hboth : v.Stands s.start s.stop ((v.named name ++ v.own value) ++ v.belowAll ts) := by
      simpa using hboth
    simp only [properties, visitProperties, List.append_nil]
    split
    · simpa using hall
    · exact hboth
  · next heq =>
    obtain ⟨-, rfl⟩ := List.cons.inj heq
    simpa [properties, visitProperties, visit] using hall
  · next heq =>
    obtain ⟨hnode, rfl⟩ := List.cons.inj heq
    obtain ⟨rfl, rfl, hmap⟩ := Tree.node.inj hnode
    obtain ⟨name, rest, hkept, rfl, -⟩ := List.map_eq_cons_iff.mp hmap
    have hmem := hsub.subset (show name ∈ Form.method.kept ts by rw [hkept]; exact List.mem_cons_self)
    have hname := one_stands hsub hrow h [] hkept ((h name hmem).named (Row.plain hrow name hmem))
    simp only [properties, visitProperties, visit, List.append_nil]
    split
    · simpa using hall
    · exact hname
  · next heq =>
    obtain ⟨-, rfl⟩ := List.cons.inj heq
    simpa [properties, visitProperties] using hall
  · next heq =>
    obtain ⟨-, rfl⟩ := List.cons.inj heq
    simpa [properties, visitProperties] using hall

theorem filled_stands (hrow : Row false a b ts) (h : ∀ t ∈ ts, v.Reaches t) :
    v.Stands a b (v.filled (node .substitution s ts) ++ v.belowAll ts) := by
  have hsub := Form.substitution.kept_sublist ts
  unfold filled
  rw [Tree.plain, plainAll_eq]
  cases hkept : Form.substitution.kept ts with
  | nil => simpa [substitutions, visitAll, visit] using belowAll_stands hrow h
  | cons inner rest =>
    have hmem := hsub.subset (show inner ∈ _ by rw [hkept]; exact List.mem_cons_self)
    have hinner := one_stands hsub hrow h [] hkept ((h inner hmem).own (Row.plain hrow inner hmem))
    simpa [substitutions, visitAll, own] using hinner

/-- What a call is taken as a root for is found in the last of its trees. -/
theorem invocation_ofRoot (called : Callee) (ts : List Tree) :
    ofRoot v.source v.options (invocation v.origin s called (ts.map plain)) = [] ∨
    ∃ last ∈ ts.getLast?,
      (last.form = .template ∧
        (ofRoot v.source v.options (invocation v.origin s called (ts.map plain))).Sublist (v.own last)) ∨
      (last.form ≠ .template ∧
        (ofRoot v.source v.options (invocation v.origin s called (ts.map plain))).Sublist (v.given last)) := by
  induction ts with
  | nil => simp [invocation, ofRoot]
  | cons t ts ih =>
    cases ts with
    | cons u us => simpa [invocation] using ih
    | nil =>
      refine .inr ⟨t, rfl, ?_⟩
      obtain ⟨form, span, inside⟩ := t
      by_cases hform : form = .template
      · subst hform
        refine .inl ⟨rfl, ?_⟩
        simp only [List.map_singleton, Tree.plain, invocation, ofRoot]
        split
        · simp [own, Tree.plain, expression]
        · simp
      · refine .inr ⟨hform, ?_⟩
        rw [List.map_singleton, Tree.plain, invocation]
        · rw [ofRoot, ofCall]
          split
          · exact List.Sublist.refl _
          · simp
        · exact hform

theorem lastExpression_eq :
    lastExpression v.origin (ts.map plain) = ts.getLast?.map fun t => expression v.origin t.plain := by
  induction ts with
  | nil => rfl
  | cons t ts ih =>
    cases ts with
    | nil => rfl
    | cons u us => simpa [lastExpression] using ih

/-- What a variable is taken as a root for is found in the last of its trees. -/
theorem declarator_ofRoot (initialized : Bool) (ts : List Tree) :
    ofRoot v.source v.options (expression v.origin (node (.declarator initialized) s (ts.map plain))) = [] ∨
    ∃ last ∈ ts.getLast?, (ofRoot v.source v.options
      (expression v.origin (node (.declarator initialized) s (ts.map plain)))).Sublist (v.own last) := by
  cases ts with
  | nil => exact .inl (by simp [expression, ofRoot])
  | cons name rest =>
    have htaken (named : Option String) : (visit v.source v.options (.declarator (v.origin.place s) named
        (if initialized then lastExpression v.origin (rest.map plain) else none))) = [] ∨
        ∃ last ∈ (name :: rest).getLast?, (visit v.source v.options (.declarator (v.origin.place s) named
          (if initialized then lastExpression v.origin (rest.map plain) else none))).Sublist (v.own last) := by
      rw [lastExpression_eq]
      cases named with
      | none => exact .inl (by simp [visit])
      | some n =>
        cases hlast : rest.getLast? with
        | none => exact .inl (by simp [visit])
        | some last =>
          cases initialized with
          | false => exact .inl (by simp [visit])
          | true =>
            refine .inr ⟨last, by simp [List.getLast?_cons, hlast], ?_⟩
            simp only [if_true, Option.map_some, visit]
            split
            · exact List.Sublist.refl _
            · simp
    simp only [List.map_cons, expression, ofRoot]
    exact htaken _

theorem below_stands (hrow : Row form.declares s.start s.stop ts) (hadmits : form.Admits ts)
    (h : ∀ t ∈ ts, v.Reaches t) : v.Stands s.start s.stop (v.below (node form s ts)) := by
  have hall := belowAll_stands hrow h
  have hsub := form.kept_sublist ts
  -- what is taken with a root is found in its last tree
  have hlast {x : List Candidate} {last : Tree} (hlast : last ∈ (form.kept ts).getLast?)
      (hx : v.Stands last.span.start last.span.stop (x ++ v.below last)) :
      v.Stands s.start s.stop (x ++ v.belowAll ts) :=
    one_stands hsub hrow h _ (List.getLast?_eq_some_iff.mp hlast).choose_spec hx
  rw [below_node, plainAll_eq]
  split
  · next hroot =>
    cases form with
    | call =>
      cases hkept : Form.call.kept ts with
      | nil => simpa [expression, ofRoot] using hall
      | cons called rest =>
        rw [List.map_cons, expression]
        rcases invocation_ofRoot (v := v) (s := s) (callee v.origin called.plain) rest with
          hnone | ⟨last, hend, htaken⟩
        · rw [hnone]
          exact hall
        · have hend : last ∈ (Form.call.kept ts).getLast? := by
            rw [Option.mem_def] at hend
            simp [hkept, List.getLast?_cons, hend]
          have hmem := hsub.subset (List.mem_of_getLast? hend)
          rcases htaken with ⟨hform, htaken⟩ | ⟨hform, htaken⟩
          · have hown := hlast hend ((h last hmem).own (Row.plain hrow last hmem))
            exact Placed.sublist hown (htaken.append_right _)
          · have hform := (hadmits last hend).resolve_right hform
            exact Placed.sublist (hlast hend ((h last hmem).given hform)) (htaken.append_right _)
    | declarator initialized =>
      rcases declarator_ofRoot (v := v) (s := s) initialized ((Form.declarator initialized).kept ts) with
        hnone | ⟨last, hend, htaken⟩
      · rw [hnone]
        exact hall
      · have hmem := hsub.subset (List.mem_of_getLast? hend)
        have hown := hlast hend ((h last hmem).own (Row.plain hrow last hmem))
        exact Placed.sublist hown (htaken.append_right _)
    | _ => simp [Form.isRoot] at hroot
  · exact hall

theorem substitution_reaches (hsound : Sound (node .substitution s ts))
    (h : ∀ t ∈ ts, v.Reaches t) : v.Reaches (node .substitution s ts) := by
  obtain ⟨-, hsize, -, hrow⟩ := sound_node.mp hsound
  have hsize := hsize rfl
  have hbelow : v.below (node .substitution s ts) = v.belowAll ts := by
    rw [below_node]
    exact List.nil_append _
  have hinside : v.Stands (s.start + 2) (s.stop - 1) (v.belowAll ts) := belowAll_stands hrow h
  have hall : v.Stands s.start s.stop (v.belowAll ts) :=
    Placed.weaken hinside (by omega) (by omega)
  refine ⟨hbelow ▸ hall, fun _ => ?_, fun _ => ?_, fun _ => ?_, fun _ => ?_, fun hform => ?_⟩
  · simpa [own, Tree.plain, expression, visit, hbelow, Tree.span] using hall
  · simpa [named, Tree.plain, key, visit, hbelow, Tree.span] using hall
  · simpa [entered, Tree.plain, properties, visitProperties, hbelow, Tree.span] using hall
  · rw [hbelow]
    exact filled_stands hrow h
  · cases hform

theorem call_reaches (hsound : Sound (node .call s ts)) (h : ∀ t ∈ ts, v.Reaches t) :
    v.Reaches (node .call s ts) := by
  obtain ⟨-, -, hadmits, hrow⟩ := sound_node.mp hsound
  have hall : v.Stands s.start s.stop (v.below (node .call s ts)) := below_stands hrow hadmits h
  refine ⟨hall, fun _ => ?_, fun _ => ?_, fun _ => ?_, fun hform => ?_, fun hform => ?_⟩
  · rw [own, Tree.plain]
    cases plainAll .call ts with
    | nil => simpa [expression, visit, Tree.span] using hall
    | cons called rest => simpa [expression, invocation_visit, Tree.span] using hall
  · simpa [named, Tree.plain, key, visit, Tree.span] using hall
  · simpa [entered, Tree.plain, properties, visitProperties, Tree.span] using hall
  · cases hform
  · cases hform

theorem node_reaches (hsound : Sound (node form s ts)) (h : ∀ t ∈ ts, v.Reaches t) :
    v.Reaches (node form s ts) := by
  by_cases hsub : form = .substitution
  · subst hsub
    exact substitution_reaches hsound h
  by_cases hcall : form = .call
  · subst hcall
    exact call_reaches hsound h
  obtain ⟨hs, -, hadmits, hrow⟩ := sound_node.mp hsound
  have hinside : form.inside s = s := by
    unfold Form.inside
    split
    · exact absurd rfl hsub
    · rfl
  rw [hinside] at hrow
  have hbelow (hform : form.isDeclarator = false) :
      v.below (node form s ts) = v.belowAll ts := by
    rw [below_node, if_neg, List.nil_append]
    cases form <;> simp_all [Form.isRoot, Form.isDeclarator]
  refine ⟨below_stands hrow hadmits h, fun hform => ?_, fun hform => ?_, fun hform => ?_,
    fun hform => absurd hform hsub, ?_⟩
  · rw [hbelow hform]
    exact own_stands hrow hadmits h hs hform
  · rw [hbelow hform]
    exact named_stands hrow hadmits h
  · rw [hbelow hform]
    exact entered_stands hrow h
  · rintro rfl
    rw [hbelow rfl, given, Tree.plain, Tree.children, plainAll_eq, visitAll_expressions]
    exact map_stands (Form.kept_sublist _ ts) hrow h (kept_own hrow h rfl)

mutual

theorem reaches : ∀ t : Tree, Sound t → v.Reaches t
  | node _ _ ts, h => node_reaches h (allReach ts (Row.sound (sound_node.mp h).2.2.2))

theorem allReach : ∀ ts : List Tree, (∀ t ∈ ts, Sound t) → ∀ t ∈ ts, v.Reaches t
  | [], _ => by simp
  | t :: ts, h => List.forall_mem_cons.mpr ⟨reaches t (h t List.mem_cons_self),
      allReach ts fun u hu => h u (List.mem_cons_of_mem _ hu)⟩

end

/-- What the roots of a script are taken for does not overlap. -/
theorem forest_stands (hrow : Row declares a b ts) : v.Stands a b (v.belowAll ts) :=
  belowAll_stands hrow (allReach ts hrow.sound)

end View

end ClassSort.Script
