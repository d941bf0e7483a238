import ClassSort.Proofs.Markup.Forward
import ClassSort.Proofs.Source.Reach
import ClassSort.Proofs.Source.Readings
import ClassSort.Proofs.Source.Texts

/-!
The candidates of a file do not overlap: those of one script stand apart from one another, and the
scripts and attributes of a document do. What is read from an expression in braces stays within the
braces, although it is read between parentheses that are not in the document.
-/

namespace ClassSort

/-- The trees of a text stand in it, one behind the other. -/
def Script.Grammars.Orderly (g : Script.Grammars) (r : Passage) : Prop :=
  Script.Tree.Row true 0 (byteLength r.2) (g.read r.1 r.2)

namespace Source

open Script Candidate Markup

variable (g : Grammars) (source : String) (options : SortOptions) (dialect : Dialect)

variable {g dialect} in
theorem scriptRoots_placed {text : List Char} (h : g.Orderly (dialect, text)) (offset : Nat) :
    Placed offset (offset + byteLength text)
      (collect source options (scriptRoots g text offset dialect)) := by
  have hstands := View.forest_stands (v := ⟨source, options, text, offset⟩) h
  exact Placed.weaken hstands (by simp) (by simp [Nat.add_comm])

/-- Only a call is lowered to a call, but for the parentheses around it. -/
theorem expression_call {o : Origin} {t : Tree} {s : Span} {called : Callee} {arguments : List Node}
    (h : expression o t.plain = .call s called arguments) : t.form = .call ∨
      t.form = .grouping ∧ ∃ inner ∈ t.children, expression o inner.plain = .call s called arguments := by
  obtain ⟨form, whole, children⟩ := t
  rw [Tree.plain, Tree.plainAll_eq] at h
  unfold expression at h
  split at h
  case h_1 inner rest heq =>
    simp only [Tree.node.injEq] at heq
    obtain ⟨rfl, -, hchildren⟩ := heq
    obtain ⟨t, ts, hkept, rfl, -⟩ := List.map_eq_cons_iff.mp hchildren
    have hmem : t ∈ Form.grouping.kept children := by
      rw [hkept]
      exact List.mem_cons_self
    exact .inr ⟨rfl, t, (Form.kept_sublist _ children).subset hmem, h⟩
  case h_10 heq =>
    simp only [Tree.node.injEq] at heq
    exact .inl heq.1
  all_goals cases h

theorem ofPart_visit {range : Span} {n : Node}
    (h : ∀ s called arguments, n ≠ .call s called arguments) :
    ofPart source options (.mustache range n) = visit source options n := by
  cases n <;> first | rfl | exact absurd rfl (h _ _ _)

/-- What an expression in braces is taken for stands within it. -/
theorem mustache_stands (v : View) (range : Span) : ∀ t : Tree, t.Sound → t.form.isDeclarator = false →
    v.Stands t.span.start t.span.stop
      (ofPart v.source v.options (.mustache range (expression v.origin t.plain)))
  | .node form s ts, hsound, hdeclares => by
    have hreaches := View.reaches (v := v) _ hsound
    by_cases hcall : ∃ s' called arguments, expression v.origin (Script.Tree.node form s ts).plain = .call s' called arguments
    · obtain ⟨s', called, arguments, hcall⟩ := hcall
      rcases expression_call hcall with hform | ⟨hform, inner, hinner, hsame⟩
      · obtain rfl : form = .call := hform
        refine Placed.sublist hreaches.below ?_
        rw [View.below_node, if_pos (show Form.call.isRoot = true from rfl)]
        rw [Tree.plain] at hcall
        rw [Tree.plain, hcall]
        exact List.sublist_append_left _ _
      · obtain rfl : form = .grouping := hform
        obtain ⟨-, -, -, hrow⟩ := Tree.sound_node.mp hsound
        have hinner : inner ∈ ts := hinner
        have hstands := mustache_stands v range inner (hrow.sound inner hinner) (View.Row.plain hrow inner hinner)
        rw [hsame, ← hcall] at hstands
        exact Placed.weaken hstands (Nat.add_le_add_right (hrow.start_le inner hinner) _)
          (Nat.add_le_add_right (hrow.stop_le inner hinner) _)
    · rw [ofPart_visit _ _ fun s' called arguments h => hcall ⟨s', called, arguments, h⟩]
      exact Placed.sublist (hreaches.own hdeclares) (List.sublist_append_left _ _)
termination_by t => sizeOf t
decreasing_by
  have hsize := List.sizeOf_lt_of_mem hinner
  simp only [Tree.node.sizeOf_spec]
  omega

/-- The one expression of a script is that of a tree inside its first one. -/
theorem soleExpression_eq {o : Origin} {trees : List Tree} {n : Node} (h : soleExpression o trees = some n) :
    ∃ t ∈ trees, t.form = .expressionStatement ∧ ∃ e ∈ t.children, n = expression o e.plain := by
  unfold soleExpression at h
  rw [Tree.plainAll_eq] at h
  split at h
  · next s e es rest hplain =>
    cases h
    obtain ⟨t, us, hkept, ht, -⟩ := List.map_eq_cons_iff.mp hplain
    have hform : t.form = .expressionStatement := by rw [← Tree.plain_form, ht]; rfl
    have hchildren : (t.form.kept t.children).map Tree.plain = e :: es := by
      rw [← Tree.plain_children, ht]
      rfl
    obtain ⟨e, es, hinside, rfl, -⟩ := List.map_eq_cons_iff.mp hchildren
    refine ⟨t, (Form.kept_sublist _ trees).subset (by rw [hkept]; exact List.mem_cons_self), hform, e, ?_, rfl⟩
    exact (Form.kept_sublist _ _).subset (by rw [hinside]; exact List.mem_cons_self)
  · cases h

variable {g dialect} in
theorem braceExpression?_placed {text : List Char} {start : Nat} {r : Span} {n : Node}
    (hrow : g.Orderly (dialect, '(' :: text ++ [')'])) (h : braceExpression? g text (start + 1) dialect = some n) :
    Placed start (start + byteLength text + 2) (ofPart source options (.mustache r n)) := by
  have hlength : byteLength ('(' :: text ++ [')']) = byteLength text + 2 := by
    rw [byteLength_append]
    simp only [byteLength, show '('.utf8Size = 1 from rfl, show ')'.utf8Size = 1 from rfl]
    omega
  obtain ⟨⟨form, s, children⟩, ht, hform, e, he, rfl⟩ := soleExpression_eq h
  obtain rfl : form = .expressionStatement := hform
  obtain ⟨-, -, -, hinside⟩ := Tree.sound_node.mp (hrow.sound _ ht)
  have hstands := mustache_stands ⟨source, options, '(' :: text ++ [')'], start⟩ r e (hinside.sound e he)
    (View.Row.plain hinside e he)
  have hwithin : e.span.stop ≤ byteLength text + 2 :=
    hlength ▸ Nat.le_trans (hinside.stop_le e he) (hrow.stop_le _ ht)
  exact Placed.weaken hstands (Nat.le_add_left _ _)
    (Nat.le_trans (Nat.add_le_add_right hwithin _) (by dsimp only; omega))

variable {g} in
/-- The candidates of a part stand within it. -/
theorem part_placed (p : Markup.Part) (hordered : p.span.start ≤ p.span.stop)
    (hrow : ∀ r ∈ partReadings source.toList dialect p, g.Orderly r) :
    Placed p.span.start p.span.stop (ofPart source options (part g source.toList dialect p)) := by
  cases p with
  | text span => exact ofText_placed (Nat.le_refl _) (Nat.le_refl _)
  | braces span =>
    have hread := hrow _ (List.mem_singleton_self _)
    rw [part]
    cases hexpression : braceExpression? g ((sliceChars? source.toList span.inner).getD []) (span.start + 1) dialect with
    | none => exact hexpression.symm ▸ Placed.nil
    | some n =>
      have hplaced := braceExpression?_placed source options (r := span) hread hexpression
      have hexpression : braceExpression? g _ span.inner.start dialect = some n := hexpression
      simp only [hexpression, Option.getD_some]
      cases hslice : sliceChars? source.toList span.inner with
      | none =>
        rw [hslice] at hplaced
        rw [hplaced.none_of_narrow (ofPart_cut _) (by simp [byteLength])]
        exact .nil
      | some text =>
        obtain ⟨-, -, -, -, hsize⟩ := sliceChars?_eq_some.mp hslice
        rw [hslice] at hplaced
        refine hplaced.weaken (Nat.le_refl _) ?_
        simp only [Span.inner, Markup.Part.span, Option.getD_some] at hsize hordered ⊢
        omega

variable {g} in
theorem parts_placed {a b : Nat} {parts : List Markup.Part} (h : PartsRow a b parts)
    (hrow : ∀ r ∈ parts.flatMap (partReadings source.toList dialect), g.Orderly r) : Placed a b
      ((parts.map (part g source.toList dialect)).flatMap (ofPart source options)) := by
  induction parts generalizing a with
  | nil => exact .nil
  | cons p parts ih =>
    obtain ⟨hstart, hordered, hstop, hrest⟩ := h
    rw [List.flatMap_cons] at hrow
    obtain ⟨hp, hparts⟩ := List.forall_mem_append.mp hrow
    rw [List.map_cons, List.flatMap_cons]
    have hfirst := (part_placed source options dialect p hordered hp).weaken hstart (Nat.le_refl _)
    exact hfirst.append (ih hrest hparts) (Nat.le_trans hstart hordered) hstop

variable {g} in
theorem embedded_placed (f : Finding) (hrow : ∀ r ∈ embeddedReadings source.toList f, g.Orderly r) :
    Placed f.span.start f.span.stop (collect source options (embeddedRoots g source.toList f)) := by
  unfold embeddedRoots
  split
  · next content d =>
    split
    · next text hslice =>
      obtain ⟨-, -, -, -, hsize⟩ := sliceChars?_eq_some.mp hslice
      have hread : g.Orderly (d, text) := hrow _ (by simp [embeddedReadings, hslice])
      have hplaced := scriptRoots_placed source options hread content.start
      exact hplaced.weaken (Nat.le_refl _) (Nat.le_of_eq hsize)
    · exact .nil
  · exact .nil

variable {g} in
theorem attribute_placed (f : Finding) (hf : f.Forward)
    (hrow : ∀ r ∈ attributeReadings source.toList dialect f, g.Orderly r) : Placed f.span.start f.span.stop
      (collect source options (attribute? g source.toList dialect f).toList) := by
  unfold attribute?
  split
  · next value => simpa [collect, ofRoot, Finding.span] using parts_placed source options dialect hf.parts hrow
  · exact .nil

variable {g} in
/-- A script or an attribute is not both. -/
theorem finding_placed (f : Finding) (hf : f.Forward) (hscripts : ∀ r ∈ embeddedReadings source.toList f, g.Orderly r)
    (hattributes : ∀ r ∈ attributeReadings source.toList dialect f, g.Orderly r) :
    Placed f.span.start f.span.stop (collect source options (embeddedRoots g source.toList f) ++
      collect source options (attribute? g source.toList dialect f).toList) := by
  cases f with
  | classes value => exact attribute_placed source options dialect (.classes value) hf hattributes
  | script content d =>
    have hnone : collect source options
        (attribute? g source.toList dialect (.script content d)).toList = [] := rfl
    rw [hnone, List.append_nil]
    exact embedded_placed source options (.script content d) hscripts
  | style block => exact .nil

variable {g} in
theorem findings_placed {a b : Nat} {found : List Finding} (h : FindingsRow a b found)
    (hscripts : ∀ r ∈ found.flatMap (embeddedReadings source.toList), g.Orderly r)
    (hattributes : ∀ r ∈ found.flatMap (attributeReadings source.toList dialect), g.Orderly r) : Placed a b
      (collect source options (found.flatMap (embeddedRoots g source.toList)) ++
        collect source options (found.filterMap (attribute? g source.toList dialect))) := by
  induction found generalizing a with
  | nil => exact .nil
  | cons f found ih =>
    obtain ⟨hstart, hf, hrest⟩ := h
    rw [List.flatMap_cons] at hscripts hattributes
    obtain ⟨hscript, hscripts⟩ := List.forall_mem_append.mp hscripts
    obtain ⟨hattribute, hattributes⟩ := List.forall_mem_append.mp hattributes
    have hfirst := (finding_placed source options dialect f hf hscript hattribute).weaken hstart (Nat.le_refl _)
    have hall := hfirst.zip (ih hrest hscripts hattributes) (Nat.le_trans hstart hf.ordered) hrest.ordered
    simpa only [List.filterMap_eq_flatMap_toList, List.flatMap_cons, collect,
      List.flatMap_append] using hall

variable {g source} in
/-- No byte of a file belongs to two of its candidates. -/
theorem roots_apart {kind : FileKind} (hrow : ∀ r ∈ readings source kind, g.Orderly r) :
    (collect source options (roots g source kind)).Pairwise Apart := by
  unfold readings at hrow
  unfold roots
  split at hrow
  · exact (scriptRoots_placed source options (hrow _ (List.mem_singleton_self _)) 0).apart
  · obtain ⟨stop, hfound⟩ := scan_row source kind.hasBraces
    obtain ⟨hscripts, hattributes⟩ := List.forall_mem_append.mp hrow
    have hplaced := findings_placed source options _ hfound hscripts hattributes
    rw [documentRoots, collect, List.flatMap_append]
    exact hplaced.apart

end Source

end ClassSort
