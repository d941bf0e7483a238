import ClassSort.Proofs.Edit.Splicing
import ClassSort.Proofs.Rule.Rows

/-!
The fix for a class value that mixes its parts is settled: what it puts between the quotes is read back
as a row that is already in two groups. So a scan of the fixed document finds the value again, with the
same expressions and nothing to fix, and everything else as it was.
-/

namespace ClassSort.Grouping

open Markup

def spaced : Row → Row
  | [] => []
  | [cell] => [cell]
  | cell :: next :: row => cell :: (true, " ") :: spaced (next :: row)

def settled (row : Row) : Row :=
  if literals row = [] then spaced (mustaches row)
  else if row.head?.any (!·.1) then spaced (mustaches row) ++ [(true, " " ++ joined (literals row))]
  else (true, joined (literals row) ++ " ") :: spaced (mustaches row)

variable {row more : Row} {quote : Char} {text : String}

/-! The text of a row. -/

theorem shown_append (row more : Row) : shown (row ++ more) = shown row ++ shown more := by
  simp [shown, String.join_append]

theorem shown_single (cell : Bool × String) : shown [cell] = cell.2 := by simp [shown]

theorem joined_append (h : row ≠ []) (h' : more ≠ []) :
    joined (row ++ more) = joined row ++ " " ++ joined more := by
  have htexts : row.map (·.2.toList) ≠ [] := by simpa using h
  have hmore : more.map (·.2.toList) ≠ [] := by simpa using h'
  have hlists := intercalate_append htexts hmore
  apply String.toList_inj.mp
  simpa [joined, String.toList_intercalate, Function.comp_def] using hlists

theorem shown_spaced (row : Row) : shown (spaced row) = joined row := by
  fun_induction spaced row with
  | case1 => rfl
  | case2 cell => simp [shown_single, joined]
  | case3 cell next row ih =>
    have hsplit := joined_append (List.cons_ne_nil cell []) (List.cons_ne_nil next row)
    have hfirst : joined [cell] = cell.2 := by simp [joined]
    rw [List.singleton_append] at hsplit
    rw [hsplit, hfirst, ← ih]
    simp [shown, String.append_assoc]

theorem shown_settled (h : mustaches row ≠ []) : shown (settled row) = joined (regrouped row) := by
  unfold settled regrouped
  split
  · next hnone =>
    rw [hnone, List.append_nil, List.nil_append, ite_self]
    exact shown_spaced _
  · next hsome =>
    split
    · rw [shown_append, shown_spaced, joined_append h hsome, String.append_assoc, shown_single]
    · rw [joined_append hsome h, ← List.singleton_append, shown_append, shown_spaced, shown_single]

/-! Its groups. -/

theorem literals_append (row more : Row) : literals (row ++ more) = literals row ++ literals more := by
  simp [literals]

theorem mustaches_append (row more : Row) : mustaches (row ++ more) = mustaches row ++ mustaches more :=
  List.filter_append ..

theorem mustaches_spaced (h : ∀ cell ∈ row, cell.1 = false) : mustaches (spaced row) = row := by
  fun_induction spaced row with
  | case1 => rfl
  | case2 cell => simpa [mustaches] using h
  | case3 cell next row ih =>
    obtain ⟨hcell, hrow⟩ := List.forall_mem_cons.mp h
    have hrest := ih hrow
    unfold mustaches at hrest ⊢
    rw [List.filter_cons_of_pos (by simp [hcell]), List.filter_cons_of_neg (by simp), hrest]

theorem literals_mustache {cell : Bool × String} (h : cell.1 = false) (row : Row) :
    literals (cell :: row) = literals row := by
  simp [literals, h]

theorem literals_text (text : String) :
    literals [(true, text)] = if trim text = "" then [] else [(true, trim text)] := by
  by_cases h : trim text = ""
  · simp [literals, h]
  · simp [literals, h]

theorem literals_spaced (h : ∀ cell ∈ row, cell.1 = false) : literals (spaced row) = [] := by
  fun_induction spaced row with
  | case1 => rfl
  | case2 cell => exact literals_mustache (h _ List.mem_cons_self) []
  | case3 cell next row ih =>
    obtain ⟨hcell, hrow⟩ := List.forall_mem_cons.mp h
    have hblank : literals [(true, " ")] = [] := by decide
    rw [literals_mustache hcell, ← List.singleton_append, literals_append, hblank, ih hrow, List.append_nil]

theorem kind_mustaches (row : Row) : ∀ cell ∈ mustaches row, cell.1 = false := by
  intro cell hcell
  simpa using (List.mem_filter.mp hcell).2

theorem mustaches_settled (row : Row) : mustaches (settled row) = mustaches row := by
  have hspaced := mustaches_spaced (kind_mustaches row)
  have htext (text : String) : mustaches [(true, text)] = [] := rfl
  unfold settled
  split
  · exact hspaced
  · split
    · rw [mustaches_append, hspaced, htext, List.append_nil]
    · rw [← List.singleton_append, mustaches_append, hspaced, htext, List.nil_append]

theorem isSolid_joined_literals (h : literals row ≠ []) : IsSolid (joined (literals row)).toList := by
  have htexts : (literals row).map (·.2.toList) ≠ [] := by simpa using h
  have hsolid := isSolid_intercalate htexts (List.forall_mem_map.mpr isSolid_literals)
  simpa [joined, String.toList_intercalate, Function.comp_def] using hsolid

/-- A space next to a group is trimmed. -/
theorem literals_group (h : IsSolid text.toList) :
    literals [(true, " " ++ text)] = [(true, text)] ∧ literals [(true, text ++ " ")] = [(true, text)] := by
  have hspace : ∀ c ∈ [' '], isBlank c = true := by
    intro c hc
    rw [List.mem_singleton.mp hc]
    rfl
  have hfront := trimChars_around hspace h (List.forall_mem_nil _)
  have hback := trimChars_around (List.forall_mem_nil _) h hspace
  have hne : text ≠ "" := by
    rintro rfl
    exact h.ne rfl
  have hfront' : trim (" " ++ text) = text := by
    have hlists := congrArg String.ofList hfront
    simpa [trim] using hlists
  have hback' : trim (text ++ " ") = text := by
    have hlists := congrArg String.ofList hback
    simpa [trim] using hlists
  rw [literals_text, literals_text, hfront', hback', if_neg hne]
  exact ⟨rfl, rfl⟩

theorem literals_settled (row : Row) :
    literals (settled row) = if literals row = [] then [] else [(true, joined (literals row))] := by
  have hspaced := literals_spaced (kind_mustaches row)
  unfold settled
  by_cases hnone : literals row = []
  · rw [if_pos hnone, if_pos hnone, hspaced]
  · obtain ⟨hfront, hback⟩ := literals_group (isSolid_joined_literals hnone)
    rw [if_neg hnone, if_neg hnone]
    split
    · rw [literals_append, hspaced, hfront, List.nil_append]
    · rw [← List.singleton_append, literals_append, hspaced, hback, List.append_nil]

theorem head_spaced (row : Row) : (spaced row).head? = row.head? := by
  fun_cases spaced row with
  | case1 => rfl
  | case2 => rfl
  | case3 => rfl

theorem any_head_mustaches (h : mustaches row ≠ []) : (mustaches row).head?.any (!·.1) = true := by
  obtain ⟨cell, rest, hrow⟩ := List.exists_cons_of_ne_nil h
  have hkind := kind_mustaches row cell (by simp [hrow])
  simp [hrow, hkind]

/-- The groups of a settled row are its text. -/
theorem regrouped_settled (h : mustaches row ≠ []) :
    joined (regrouped (settled row)) = shown (settled row) := by
  rw [shown_settled h, regrouped, mustaches_settled, literals_settled, regrouped]
  by_cases hnone : literals row = []
  · simp [hnone]
  · have hgroup : joined [(true, joined (literals row))] = joined (literals row) := by simp [joined]
    have hone : [(true, joined (literals row))] ≠ [] := List.cons_ne_nil _ _
    rw [if_neg hnone, settled, if_neg hnone]
    by_cases hfirst : row.head?.any (!·.1) = true
    · have hhead : (spaced (mustaches row) ++ [(true, " " ++ joined (literals row))]).head?.any (!·.1) =
          true := by
        rw [List.head?_append_of_ne_nil, head_spaced]
        · exact any_head_mustaches h
        · intro hnil
          have hempty := head_spaced (mustaches row)
          rw [hnil] at hempty
          exact h (List.head?_eq_none_iff.mp hempty.symm)
      rw [if_pos hfirst, if_pos hfirst, if_pos hhead, joined_append h hone, joined_append h hnone, hgroup]
    · rw [if_neg hfirst, if_neg hfirst, if_neg (by simp), joined_append hone h, joined_append hnone h, hgroup]

/-! It is read back cell by cell. -/

theorem inert_space (hquote : quote = '"' ∨ quote = '\'') : Inert quote " ".toList := by
  unfold Inert
  rcases hquote with rfl | rfl
  · simp
  · simp

theorem Inert.append {left right : String} (h : Inert quote left.toList) (h' : Inert quote right.toList) :
    Inert quote (left ++ right).toList := by
  intro c hc
  rw [String.toList_append] at hc
  exact (List.mem_append.mp hc).elim (h c) (h' c)

theorem inert_literals (h : Plain quote row) : ∀ cell ∈ literals row, Inert quote cell.2.toList := by
  intro cell hcell c hc
  obtain ⟨text, htext, rfl⟩ := List.mem_map.mp hcell
  obtain ⟨whole, hwhole, rfl⟩ := List.mem_map.mp (List.mem_filter.mp htext).1
  obtain ⟨hmem, hkind⟩ := List.mem_filter.mp hwhole
  obtain ⟨front, back, hsplit, -⟩ := exists_trimmed whole.2.toList
  apply (h.texts whole hmem hkind).2
  rw [hsplit]
  simp only [trim, String.toList_ofList] at hc
  simp [hc]

theorem mem_spaced {cell : Bool × String} (h : cell ∈ spaced row) : cell ∈ row ∨ cell = (true, " ") := by
  fun_induction spaced row with
  | case1 => exact .inl h
  | case2 => exact .inl h
  | case3 first next row ih =>
    rcases List.mem_cons.mp h with rfl | h
    · exact .inl List.mem_cons_self
    · rcases List.mem_cons.mp h with h | h
      · exact .inr h
      · exact (ih h).imp_left (List.mem_cons_of_mem _)

theorem inert_joined (hquote : quote = '"' ∨ quote = '\'') (h : ∀ cell ∈ row, Inert quote cell.2.toList) :
    Inert quote (joined row).toList := by
  intro c hc
  rw [← shown_spaced, toList_shown] at hc
  obtain ⟨cell, hcell, hc⟩ := List.mem_flatMap.mp hc
  rcases mem_spaced hcell with hcell | rfl
  · exact h cell hcell c hc
  · exact inert_space hquote c hc

theorem plain_spaced (hquote : quote = '"' ∨ quote = '\'')
    (h : ∀ cell ∈ row, cell.1 = false ∧ IsBraced cell.2.toList) (hrow : row ≠ []) (hmore : Plain quote more) :
    Plain quote (spaced row ++ more) := by
  fun_induction spaced row with
  | case1 => exact absurd rfl hrow
  | case2 cell =>
    obtain ⟨hkind, hbraced⟩ := h cell List.mem_cons_self
    obtain ⟨kind, text⟩ := cell
    obtain rfl : kind = false := hkind
    exact hmore.consMustache hbraced
  | case3 cell next row ih =>
    obtain ⟨⟨hkind, hbraced⟩, hrest⟩ := List.forall_mem_cons.mp h
    obtain ⟨kind, text⟩ := cell
    obtain rfl : kind = false := hkind
    have hnext : ∀ other ∈ (spaced (next :: row) ++ more).head?, other.1 = false := by
      intro other hother
      rw [List.head?_append, head_spaced] at hother
      cases hother
      exact (hrest next List.mem_cons_self).1
    have hblank := (ih hrest (List.cons_ne_nil _ _)).consText (by decide) (inert_space hquote) hnext
    exact hblank.consMustache hbraced

/-- A scan reads the text of the groups as the settled row. -/
theorem plain_settled (hquote : quote = '"' ∨ quote = '\'') (h : Plain quote row) (hne : mustaches row ≠ []) :
    Plain quote (settled row) := by
  have hbraced : ∀ cell ∈ mustaches row, cell.1 = false ∧ IsBraced cell.2.toList := by
    intro cell hcell
    have hkind := kind_mustaches row cell hcell
    exact ⟨hkind, h.mustaches cell (List.mem_filter.mp hcell).1 hkind⟩
  have hspaced := plain_spaced hquote hbraced hne (.nil quote)
  rw [List.append_nil] at hspaced
  have hinert := inert_joined hquote (inert_literals h)
  unfold settled
  split
  · exact hspaced
  · split
    · refine plain_spaced hquote hbraced hne ((Plain.nil quote).consText (by simp) ?_ (by simp))
      exact (inert_space hquote).append hinert
    · refine hspaced.consText (by simp) (hinert.append (inert_space hquote)) ?_
      intro cell hcell
      rw [head_spaced] at hcell
      exact kind_mustaches row cell (List.mem_of_mem_head? hcell)

/-! The fixed document. -/

theorem mustaches_ne_nil (h : Plain quote row) (hlong : ¬ row.length < 2) : mustaches row ≠ [] := by
  intro hnone
  have htexts : ∀ cell ∈ row, cell.1 = true := by
    intro cell hcell
    simpa using List.filter_eq_nil_iff.mp hnone cell hcell
  match row with
  | [] => exact hlong (by simp)
  | [_] => exact hlong (by simp)
  | a :: b :: row =>
    obtain ⟨hfirst, hrest⟩ := List.forall_mem_cons.mp htexts
    exact (List.isChain_cons_cons.mp h.alternate).1 ⟨hfirst, hrest b List.mem_cons_self⟩

/-- What a fix makes of the value `v` in a document: it is `v'` in the output. -/
structure Settles (g : Script.Grammars) (source output : String) (quote : Char) (v v' : Value) : Prop where
  start : v'.span.start = v.span.start
  enclosed : v'.EnclosedBy quote output.toList
  length : byteLength output.toList + v.span.stop = byteLength source.toList + v'.span.stop
  others : ∃ before after, scan source true = before ++ .classes v :: after ∧
    scan output true = before ++ .classes v' :: after.map (Finding.map (moved v v'))
  expressions : ∀ dialect, ∃ row row',
    partTexts source (v.parts.map (Source.part g source.toList dialect)) = some row ∧
    partTexts output (v'.parts.map (Source.part g output.toList dialect)) = some row' ∧
    mustaches row' = mustaches row
  done : ∀ dialect node, Source.attribute? g output.toList dialect (.classes v') = some node →
    check output node = none

variable {g : Script.Grammars} {source output : String} {row' : Row} {front back : List Char}

theorem Holds.settles (h : Holds source.toList front quote row back)
    (h' : Holds output.toList front quote row' back)
    (hv : .classes (quoted (byteLength front) row) ∈ scan source true)
    (hsame : mustaches row' = mustaches row)
    (hdone : row'.length < 2 ∨ joined (regrouped row') = shown row') :
    Settles g source output quote (quoted (byteLength front) row) (quoted (byteLength front) row') where
  start := rfl
  enclosed := h'.enclosed
  length := by
    rw [h.text, h'.text]
    simp only [byteLength_append, byteLength, quoted]
    omega
  others := scan_exchanged (h.exchanged h') hv
  expressions := by
    intro dialect
    exact ⟨row, row', h.partTexts g dialect, h'.partTexts g dialect, hsame⟩
  done := by
    intro dialect node hnode
    rw [h'.check_eq hnode, if_pos hdone]

/-- A scan of the document with the fix for a closed value finds the value with the same quotes and the
same expressions, everything else where it is now, and there is nothing more to fix in it. -/
theorem check_settles {v : Value} (hv : .classes v ∈ scan source true)
    (hclosed : v.EnclosedBy quote source.toList) {dialect : Script.Dialect} {node : Node}
    (hnode : Source.attribute? g source.toList dialect (.classes v) = some node) :
    ∃ fixed v', applyViolations source (check source node).toList = .ok fixed ∧
      Settles g source fixed.output quote v v' := by
  obtain ⟨front, row, back, h, rfl⟩ := exists_holds (scan_standing hv) hclosed
  rw [h.check_eq hnode]
  split
  · next hdone =>
    -- nothing is fixed
    refine ⟨⟨String.ofList source.toList, 0, 0⟩, quoted (byteLength front) row, rfl, ?_⟩
    rw [String.ofList_toList]
    exact h.settles h hv rfl hdone
  · next hfound =>
    obtain ⟨hlong, -⟩ := not_or.mp hfound
    have hne := mustaches_ne_nil h.plain hlong
    have hfix := applyViolations_single
      (v := ⟨rule, (quoted (byteLength front) row).span.inner, joined (regrouped row), message⟩) h.inside
      (congrArg Span.start h.inner) (congrArg Span.stop h.inner)
    refine ⟨_, quoted (byteLength front) (settled row), hfix, ?_⟩
    refine h.settles ⟨h.isQuote, plain_settled h.isQuote h.plain hne, ?_⟩ hv (mustaches_settled row)
      (.inr (regrouped_settled hne))
    simp [shown_settled hne]

def blankFirst : String := "<p class=\" \x7ba\x7d b\x7bc\x7d\" x></p><i class='d'><style></style>"

def blankFirstValue : Value :=
  ⟨⟨9, 20⟩, true, [.text ⟨10, 11⟩, .braces ⟨11, 14⟩, .text ⟨14, 16⟩, .braces ⟨16, 19⟩]⟩

theorem check_settles_blankFirst : .classes blankFirstValue ∈ scan blankFirst true ∧
    blankFirstValue.EnclosedBy '"' blankFirst.toList ∧
    ∃ node fixed v', Source.attribute? Script.builtIn blankFirst.toList .javaScript (.classes blankFirstValue) = some node ∧
      applyViolations blankFirst (check blankFirst node).toList = .ok fixed ∧
      fixed.output = "<p class=\"b \x7ba\x7d \x7bc\x7d\" x></p><i class='d'><style></style>" ∧
      Settles Script.builtIn blankFirst fixed.output '"' blankFirstValue v' := by
  have hv : .classes blankFirstValue ∈ scan blankFirst true := by decide +kernel
  have hclosed : blankFirstValue.EnclosedBy '"' blankFirst.toList :=
    ⟨rfl, by decide +kernel, by decide, by decide +kernel, by decide⟩
  obtain ⟨node, hnode⟩ : ∃ node, Source.attribute? Script.builtIn blankFirst.toList .javaScript (.classes blankFirstValue) =
      some node := ⟨_, rfl⟩
  have hfound : ((Source.attribute? Script.builtIn blankFirst.toList .javaScript (.classes blankFirstValue)).bind
      (check blankFirst)) = some ⟨rule, ⟨10, 19⟩, "b \x7ba\x7d \x7bc\x7d", message⟩ := by decide +kernel
  rw [hnode, Option.bind_some] at hfound
  obtain ⟨fixed, v', hfix, hsettles⟩ := check_settles hv hclosed hnode
  refine ⟨hv, hclosed, node, fixed, v', hnode, hfix, ?_, hsettles⟩
  rw [hfound] at hfix
  have hrun : applyViolations blankFirst [⟨rule, ⟨10, 19⟩, "b \x7ba\x7d \x7bc\x7d", message⟩] =
      .ok ⟨"<p class=\"b \x7ba\x7d \x7bc\x7d\" x></p><i class='d'><style></style>", 1, 0⟩ := by decide +kernel
  rw [Option.toList_some, hrun] at hfix
  cases hfix
  rfl

end ClassSort.Grouping
