import ClassSort.Proofs.Script.BuiltIn
import ClassSort.Proofs.Source.Documents

/-!
An expression in braces is searched as one root, while a script has a root for every call in it. So of
what a script finds in an expression, a class attribute finds what the outermost call is called with, if
the expression is a call, and nothing of the calls and templates further inside.
-/

namespace ClassSort.Source

open Script Candidate Markup

/-- A text that is an expression in its dialect. Between parentheses it is read as one tree, and a script
with this text has no roots but those of the tree. -/
structure IsExpression (g : Grammars) (dialect : Dialect) (text : List Char) (t : Tree) : Prop where
  grouped : ∃ s p, g.read dialect ('(' :: text ++ [')']) =
    [.node .expressionStatement s [.node .grouping p [t.shift 1]]]
  bounded : t.Bounded (byteLength text)
  whole : t.form ≠ .broken ∧ t.form.isDeclarator = false
  script : ∀ root ∈ scriptRoots g text 0 dialect, root ∈ treeRoots ⟨text, 0⟩ t

variable {g : Grammars} {source : String} {options : SortOptions} {dialect : Dialect} {text : List Char} {t : Tree}
  {range : Span} {v : Value} {c : Candidate}

namespace IsExpression

/-- What a script finds in an expression is found in the roots of its tree. -/
theorem mem_below (h : IsExpression g dialect text t)
    (hc : c ∈ collect (String.ofList text) options (scriptRoots g text 0 dialect)) :
    c ∈ View.below ⟨String.ofList text, options, text, 0⟩ t := by
  obtain ⟨root, hroot, hc⟩ := List.mem_flatMap.mp hc
  exact List.mem_flatMap.mpr ⟨root, h.script root hroot, hc⟩

/-- What an expression shows itself and what the roots in it show do not overlap. -/
theorem not_own (h : IsExpression g dialect text t)
    (hc : c ∈ collect (String.ofList text) options (scriptRoots g text 0 dialect)) :
    c ∉ visit (String.ofList text) options (expression ⟨text, 0⟩ t.plain) := by
  intro hown
  have hforward := (collect_cut _ c hc).forward
  have hreaches := View.reaches (v := ⟨String.ofList text, options, text, 0⟩) t h.bounded.1
  obtain ⟨-, -, hapart⟩ := List.pairwise_append.mp (hreaches.own h.whole.2).apart
  have hself : c.range.Disjoint c.range := hapart c hown c (h.mem_below hc)
  unfold Span.Disjoint Span.Before at hself
  omega

/-- Between parentheses that are not in the document the expression is lowered to what it is, at its
place in the document. -/
theorem braceExpression?_eq (h : IsExpression g dialect text t) (start : Nat) :
    braceExpression? g text (start + 1) dialect =
      some ((expression ⟨text, 0⟩ t.plain).shift (start + 1)) := by
  obtain ⟨s, p, hread⟩ := h.grouped
  have hembeds : Origin.Embeds ⟨text, 0⟩ ⟨'(' :: text ++ [')'], start⟩ 1 (start + 1) :=
    ⟨⟨['('], [')'], rfl, rfl⟩, rfl, rfl⟩
  have hmoved := hembeds.carries.expression_moved t.plain ⟨t, h.bounded, rfl⟩
  have hkept : Form.grouping.keeps (t.shift 1).form = true := by
    rw [Tree.map_form]
    have hform := h.whole.1
    revert hform
    cases t.form <;> simp [Form.keeps]
  have heq : (expression ⟨text, 0⟩ t.plain).shift (start + 1) = _ := hmoved.eq.symm
  have hstatement : Tree.plainAll .other [.node .expressionStatement s [.node .grouping p [t.shift 1]]] =
      [.node .expressionStatement s [.node .grouping p [(t.shift 1).plain]]] := by
    have hgrouping : Tree.plainAll .grouping [t.shift 1] = [(t.shift 1).plain] := by
      rw [Tree.plainAll, if_pos hkept, Tree.plainAll]
    rw [← hgrouping]
    rfl
  rw [braceExpression?, hread, heq, ← Tree.plain_map, soleExpression, hstatement]
  simp [expression]

end IsExpression

/-- A part of an attribute has the same candidates in a text and where that stands. -/
theorem ofPart_shift {short : String} {k : Nat} (h : Embeds source short k) (range range' : Span) {n : Node}
    (hn : n.Spans (Ends (byteLength short.toList))) :
    ofPart source options (.mustache range' (n.shift k)) =
      (ofPart short options (.mustache range n)).map (shift k) := by
  cases n with
  | call s callee arguments =>
    rw [Node.Spans] at hn
    simp only [Node.map, ofPart, ofCall]
    split
    · exact visitAll_shift h arguments hn.2
    · rfl
  | declarator s name init =>
    have hvisit : visit source options _ = _ := visit_shift h _ hn
    cases init with
    | none => exact hvisit
    | some init => exact hvisit
  | _ =>
    have hvisit : visit source options _ = _ := visit_shift h _ hn
    exact hvisit

/-- Findings of a row stand behind where it begins. -/
theorem row_behind {a b : Nat} {found : List Finding} (h : FindingsRow a b found) :
    ∀ f ∈ found, a ≤ f.span.start ∧ f.Forward := by
  induction found generalizing a with
  | nil => simp
  | cons first found ih =>
    obtain ⟨hstart, hfirst, hrest⟩ := h
    refine List.forall_mem_cons.mpr ⟨⟨hstart, hfirst⟩, fun f hf => ?_⟩
    obtain ⟨hbehind, hforward⟩ := ih hrest f hf
    exact ⟨Nat.le_trans hstart (Nat.le_trans hfirst.ordered hbehind), hforward⟩

theorem row_disjoint {a b : Nat} {found : List Finding} (h : FindingsRow a b found) {f f' : Finding}
    (hf : f ∈ found) (hf' : f' ∈ found) : f = f' ∨ f.span.Disjoint f'.span := by
  induction found generalizing a with
  | nil => cases hf
  | cons e found ih =>
    obtain ⟨-, -, hrest⟩ := h
    rcases List.mem_cons.mp hf with rfl | hmem
    · rcases List.mem_cons.mp hf' with rfl | hmem'
      · exact .inl rfl
      · exact .inr (.inl (row_behind hrest f' hmem').1)
    · rcases List.mem_cons.mp hf' with rfl | hmem'
      · exact .inr (.inr (row_behind hrest f hmem).1)
      · exact ih hrest hmem hmem'

def foundIn (g : Grammars) (source : String) (options : SortOptions) (dialect : Dialect) (f : Finding) :
    List Candidate :=
  collect source options (embeddedRoots g source.toList f) ++
    collect source options (attribute? g source.toList dialect f).toList

theorem mem_documentRoots {found : List Finding} :
    c ∈ collect source options (documentRoots g source.toList found) ↔
      ∃ f ∈ found, c ∈ foundIn g source options (documentDialect found) f := by
  simp only [documentRoots, foundIn, collect, List.filterMap_eq_flatMap_toList, List.flatMap_append,
    List.mem_append, List.mem_flatMap]
  constructor
  · rintro (⟨root, ⟨f, hf, hroot⟩, hc⟩ | ⟨root, ⟨f, hf, hroot⟩, hc⟩)
    · exact ⟨f, hf, .inl ⟨root, hroot, hc⟩⟩
    · exact ⟨f, hf, .inr ⟨root, hroot, hc⟩⟩
  · rintro ⟨f, hf, ⟨root, hroot, hc⟩ | ⟨root, hroot, hc⟩⟩
    · exact .inl ⟨root, ⟨f, hf, hroot⟩, hc⟩
    · exact .inr ⟨root, ⟨f, hf, hroot⟩, hc⟩

/-- What stands within a finding of a document was found there or not at all. -/
theorem mem_documentRoots_within {a b : Nat} {found : List Finding} (hrow : FindingsRow a b found)
    (hscripts : ∀ r ∈ found.flatMap (embeddedReadings source.toList), g.Orderly r)
    (hattributes : ∀ r ∈ found.flatMap (attributeReadings source.toList (documentDialect found)), g.Orderly r)
    {f : Finding} (hf : f ∈ found) (hforward : c.range.start < c.range.stop)
    (hwithin : c.range.Within f.span) :
    c ∈ collect source options (documentRoots g source.toList found) ↔
      c ∈ foundIn g source options (documentDialect found) f := by
  rw [mem_documentRoots]
  constructor
  · rintro ⟨f', hf', hc⟩
    have hplaced := finding_placed source options (documentDialect found) f' (row_behind hrow f' hf').2
      (fun r hr => hscripts r (List.mem_flatMap_of_mem hf' hr))
      (fun r hr => hattributes r (List.mem_flatMap_of_mem hf' hr))
    obtain ⟨hstart, hstop⟩ := hplaced.within c hc
    obtain ⟨hstart', hstop'⟩ := hwithin
    rcases row_disjoint hrow hf hf' with rfl | hbefore | hbehind
    · exact hc
    · unfold Span.Before at hbefore
      omega
    · unfold Span.Before at hbehind
      omega
  · exact fun hc => ⟨f, hf, hc⟩

/-- What a script finds in an expression, a document with a class attribute for the expression finds
exactly if the expression is a call and the classes are among what it is called with itself. -/
theorem svelte_finds_iff (hread : ∀ r ∈ readings source .svelte, g.Orderly r)
    (hv : .classes v ∈ scan source true) (hparts : v.parts = [.braces range])
    (hslice : sliceChars? source.toList range.inner = some text)
    (ht : IsExpression g (documentDialect (scan source true)) text t) :
    ∀ c ∈ collect (String.ofList text) options
        (scriptRoots g text 0 (documentDialect (scan source true))),
      (c.shift (range.start + 1) ∈ collect source options (roots g source .svelte) ↔
        ∃ s callee arguments, expression ⟨text, 0⟩ t.plain = .call s callee arguments ∧
          c ∈ ofCall (String.ofList text) options callee arguments) := by
  intro c hc
  obtain ⟨before, after, hsplit, hstart, hstop⟩ := sliceChars?_eq_some.mp hslice
  have hembeds : Embeds source (String.ofList text) (range.start + 1) :=
    ⟨before, after, by rw [String.toList_ofList]; exact hsplit, hstart⟩
  obtain ⟨stop, hrow⟩ := scan_row source true
  have hforward := (row_behind hrow _ hv).2
  obtain ⟨hscripts, hattributes⟩ := List.forall_mem_append.mp hread
  -- the attribute has one part, and this is the expression at its place
  have hfound : foundIn g source options (documentDialect (scan source true)) (.classes v) =
      (ofPart (String.ofList text) options (.mustache range (expression ⟨text, 0⟩ t.plain))).map
        (shift (range.start + 1)) := by
    have hpart : part g source.toList (documentDialect (scan source true)) (.braces range) =
        .mustache range ((expression ⟨text, 0⟩ t.plain).shift (range.start + 1)) := by
      rw [part, hslice]
      simp only [Option.getD_some]
      rw [show range.inner.start = range.start + 1 from rfl, ht.braceExpression?_eq, Option.getD_some]
    have hsame : Origin.Embeds ⟨text, 0⟩ ⟨text, 0⟩ 0 0 := ⟨⟨[], [], by simp, rfl⟩, rfl, rfl⟩
    have hmoved := (hsame.carries.expression_moved t.plain ⟨t, ht.bounded, rfl⟩).within
    rw [← ofPart_shift hembeds range range (by rw [String.toList_ofList]; exact hmoved), ← hpart]
    simp [foundIn, collect, embeddedRoots, attribute?, ofRoot, hparts]
  have hcut := collect_cut _ c hc
  have hplaced : c.range.stop ≤ byteLength text := by
    have hbelow := (View.reaches (v := ⟨String.ofList text, options, text, 0⟩) t ht.bounded.1).below
    exact Nat.le_trans (hbelow.within c (ht.mem_below hc)).2 ht.bounded.2
  have hpartsRow := hforward.parts
  rw [hparts] at hpartsRow
  obtain ⟨hfirst, -, hlast, -⟩ := hpartsRow
  have hwithin : (c.shift (range.start + 1)).range.Within v.span := by
    simp only [Span.inner, Markup.Part.span] at hstop hfirst hlast
    constructor
    · simp only [Candidate.shift, Span.shift]
      omega
    · simp only [Candidate.shift, Span.shift]
      omega
  have hforwardShift : (c.shift (range.start + 1)).range.start < (c.shift (range.start + 1)).range.stop :=
    Nat.add_lt_add_right hcut.forward _
  rw [show roots g source .svelte = documentRoots g source.toList (scan source true) from rfl,
    mem_documentRoots_within hrow hscripts hattributes hv hforwardShift hwithin, hfound, mem_map_shift]
  by_cases hcall : ∃ s callee arguments, expression ⟨text, 0⟩ t.plain = .call s callee arguments
  · obtain ⟨s, callee, arguments, hcall⟩ := hcall
    rw [hcall]
    constructor
    · exact fun hown => ⟨s, callee, arguments, rfl, hown⟩
    · rintro ⟨_, _, _, ⟨⟩, hown⟩
      exact hown
  · rw [ofPart_visit _ _ fun s callee arguments h => hcall ⟨s, callee, arguments, h⟩]
    constructor
    · intro hown
      exact absurd hown (ht.not_own hc)
    · rintro ⟨s, callee, arguments, h, -⟩
      exact absurd ⟨s, callee, arguments, h⟩ hcall

def bracedDocument (expression : String) : String := "<p class=\x7b" ++ expression ++ "\x7d></p>"

def innerCall : String := "clsx(\"b a\",clsx(\"d c\"))"

def innerCallTree : Tree :=
  .node .call ⟨0, 23⟩ [.node .identifier ⟨0, 4⟩ [],
    .node .arguments ⟨4, 23⟩ [.node .string ⟨5, 10⟩ [],
      .node .call ⟨11, 22⟩ [.node .identifier ⟨11, 15⟩ [],
        .node .arguments ⟨15, 22⟩ [.node .string ⟨16, 21⟩ []]]]]

/-- A script of one statement that is nothing but the expression. -/
theorem isExpression_of_statement {s p u : Span} (h : builtIn.read dialect text = [.node .expressionStatement s [t]])
    (hgrouped : builtIn.read dialect ('(' :: text ++ [')']) =
      [.node .expressionStatement u [.node .grouping p [t.shift 1]]])
    (hwhole : t.form ≠ .broken ∧ t.form.isDeclarator = false) : IsExpression builtIn dialect text t where
  grouped := ⟨u, p, hgrouped⟩
  bounded := by
    have hrow := builtIn_row dialect text
    rw [h] at hrow
    exact (hrow.bounded _ List.mem_cons_self).children t List.mem_cons_self
  whole := hwhole
  script := by simp [scriptRoots, h, forestRoots, treeRoots, Form.isRoot]

set_option maxRecDepth 4096 in
theorem innerCall_isExpression : IsExpression builtIn .javaScript innerCall.toList innerCallTree :=
  isExpression_of_statement (s := ⟨0, 23⟩) (u := ⟨0, 25⟩) (p := ⟨0, 25⟩) rfl rfl (by decide)

/-- Of the two class texts in the document the outer one is found and the inner one is not. -/
theorem svelte_finds_outer :
    let source := bracedDocument innerCall
    let found := collect source .standard (roots builtIn source .svelte)
    IsExpression builtIn .javaScript innerCall.toList innerCallTree ∧
      collect innerCall .standard (scriptRoots builtIn innerCall.toList 0 .javaScript) =
        [⟨⟨6, 9⟩, "", "b a", ""⟩, ⟨⟨17, 20⟩, "", "d c", ""⟩] ∧
      ⟨⟨16, 19⟩, "", "b a", ""⟩ ∈ found ∧ ⟨⟨27, 30⟩, "", "d c", ""⟩ ∉ found := by
  intro source found
  have hscan : scan source true = [.classes ⟨⟨9, 34⟩, false, [.braces ⟨9, 34⟩]⟩] := by decide +kernel
  have hdialect : documentDialect (scan source true) = .javaScript := by rw [hscan]; rfl
  have hscript : collect innerCall .standard (scriptRoots builtIn innerCall.toList 0 .javaScript) =
      [⟨⟨6, 9⟩, "", "b a", ""⟩, ⟨⟨17, 20⟩, "", "d c", ""⟩] := by decide +kernel
  have hown : ∀ s callee arguments, expression ⟨innerCall.toList, 0⟩ innerCallTree.plain =
      .call s callee arguments → ofCall innerCall .standard callee arguments =
        [⟨⟨6, 9⟩, "", "b a", ""⟩] := by
    intro s callee arguments h
    cases h
    decide +kernel
  have hattribute : Finding.classes ⟨⟨9, 34⟩, false, [.braces ⟨9, 34⟩]⟩ ∈ scan source true := by
    rw [hscan]
    exact List.mem_cons_self
  have hslice : sliceChars? source.toList (Span.inner ⟨9, 34⟩) = some innerCall.toList := by decide +kernel
  have hiff (c : Candidate) (hc : c ∈ collect (String.ofList innerCall.toList) .standard
      (scriptRoots builtIn innerCall.toList 0 (documentDialect (scan source true)))) :=
    svelte_finds_iff (fun r _ => (builtIn_row r.1 r.2).loosen) hattribute rfl hslice
      (by rw [hdialect]; exact innerCall_isExpression) c hc
  rw [hdialect, String.ofList_toList, hscript] at hiff
  refine ⟨innerCall_isExpression, hscript, ?_, ?_⟩
  · exact (hiff _ List.mem_cons_self).mpr ⟨_, _, _, rfl, by rw [hown _ _ _ rfl]; exact List.mem_cons_self⟩
  · intro hfound
    obtain ⟨s, callee, arguments, hcall, hmem⟩ :=
      (hiff _ (List.mem_cons_of_mem _ List.mem_cons_self)).mp hfound
    rw [hown s callee arguments hcall] at hmem
    simp at hmem

def guardedCall : String := "x && clsx(\"b a\")"

def guardedCallTree : Tree :=
  .node .logical ⟨0, 16⟩ [.node .identifier ⟨0, 1⟩ [],
    .node .call ⟨5, 16⟩ [.node .identifier ⟨5, 9⟩ [],
      .node .arguments ⟨9, 16⟩ [.node .string ⟨10, 15⟩ []]]]

set_option maxRecDepth 4096 in
theorem guardedCall_isExpression : IsExpression builtIn .javaScript guardedCall.toList guardedCallTree :=
  isExpression_of_statement (s := ⟨0, 16⟩) (u := ⟨0, 18⟩) (p := ⟨0, 18⟩) rfl rfl (by decide)

/-- A script finds the classes of the call, and the document finds nothing. -/
theorem svelte_misses_guarded : IsExpression builtIn .javaScript guardedCall.toList guardedCallTree ∧
    scan (bracedDocument guardedCall) true = [.classes ⟨⟨9, 27⟩, false, [.braces ⟨9, 27⟩]⟩] ∧
    sliceChars? (bracedDocument guardedCall).toList (Span.inner ⟨9, 27⟩) = some guardedCall.toList ∧
    collect guardedCall .standard (scriptRoots builtIn guardedCall.toList 0 .javaScript) =
      [⟨⟨11, 14⟩, "", "b a", ""⟩] ∧
    collect (bracedDocument guardedCall) .standard (roots builtIn (bracedDocument guardedCall) .svelte) = [] := by
  refine ⟨guardedCall_isExpression, ?_, ?_, ?_, ?_⟩
  · decide +kernel
  · decide +kernel
  · decide +kernel
  · decide +kernel

end ClassSort.Source
