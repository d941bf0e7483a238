import ClassSort.Proofs.Script.Expressions
import ClassSort.Proofs.Script.Types
import ClassSort.Script.Parse

/-!
Statements find trees where they move, and put a tree of their own around the variables that they
declare. So every goal does at every depth, and the trees of a script are well nested.
-/

namespace ClassSort.Script

open Script.Tree Reader
open Finds (found)

namespace Grammar

theorem seesDeclaration_looks : Looks seesDeclaration := by
  refine .bind (seesKeyword_looks _) fun _ => ?_
  exact .bind (seesKeyword_looks _) fun _ => .ite (.pure _) (ahead_looks _)

variable {g : Grammar} (hg : g.Takes)
include hg

theorem declarator_takes : Reads true true g.declarator := by
  refine .mark fun o => .bind (one_takes hg _) fun name => .bind (typed_reads (t := true) ?_) fun _ =>
    .bind (annotation_reads hg) fun types => .bind (fallback_reads hg) fun value => ?_
  · exact .of fun _ => .bind (sign_takes "!") fun _ => .done (by simp)
  · intro c t c' hc h
    obtain ⟨rfl, rfl⟩ := node_eq_some.mp h
    exact hc.node (by simp) (by simp) trivial trivial (by simp) (.inl rfl)

theorem declarators_takes : Reads true true g.declarators := by
  refine .lookAt seesDeclaration_looks fun _ => ?_
  refine .lookAt (check_looks _) fun _ => ?_
  refine .of fun _ => ?_
  exact .bind word_takes fun _ => .tail (listed_reads (declarator_takes hg)) (by simp)

theorem condition_takes : Reads false true g.condition := by
  refine .of fun _ => ?_
  refine .bind (sign_takes "(") fun _ => ?_
  exact .bind (hg.reads .expression) fun _ => .bind (sign_takes ")") fun _ => .done (by simp)

theorem body_takes : Reads false true g.body := hg.reads .statement

theorem eachHead_takes : Reads false true g.eachHead := by
  refine .of fun _ => .bind (t := true) (.orElse ?_ ?_) fun _ =>
    .bind (.orElse (keyword_takes _) (keyword_takes _)) fun _ => .bind (hg.reads .expression) fun _ =>
    .bind (sign_takes ")") fun _ => .done (by simp)
  · refine .lookAt seesDeclaration_looks fun _ => ?_
    refine .lookAt (check_looks _) fun _ => ?_
    exact .of fun _ => .bind word_takes fun _ => .tail (hg.reads .binding) (by simp)
  · refine .of fun o => ?_
    refine .bind (primary_takes hg) fun e => ?_
    exact .andThen (withSuffixes_extends hg o e) fun _ => .done (by simp)

theorem countHead_takes : Reads true true g.countHead := by
  refine .of fun _ => ?_
  refine .bind (.orElse (declarators_takes hg).forget ?_) fun _ => ?_
  · exact .orElse (hg.reads .expression).loosen.forget (.pure rfl)
  refine .bind (sign_takes ";") fun _ => ?_
  refine .bind (.orPure (hg.reads .expression).loosen rfl) fun _ => ?_
  refine .bind (sign_takes ";") fun _ => ?_
  refine .bind (.orPure (hg.reads .expression).loosen rfl) fun _ => ?_
  exact .bind (sign_takes ")") fun _ => .done (by simp)

theorem forStatement_takes : Reads true true g.forStatement := by
  refine .of fun _ => ?_
  refine .bind (keyword_takes _) fun _ => ?_
  refine .bind (taken_reads (keyword_takes _)) fun _ => ?_
  refine .bind (sign_takes "(") fun _ => ?_
  refine .bind (.orElse (eachHead_takes hg).loosen (countHead_takes hg)) fun _ => ?_
  exact .bind (body_takes hg).loosen fun _ => .done (by simp)

theorem ifStatement_takes : Reads false true g.ifStatement := by
  refine .of fun _ => ?_
  refine .bind (keyword_takes _) fun _ => ?_
  refine .bind (condition_takes hg) fun _ => ?_
  refine .bind (body_takes hg) fun _ => ?_
  exact .bind (.orPure (.seq (keyword_takes _) (body_takes hg)) rfl) fun _ => .done (by simp)

theorem whileStatement_takes : Reads false true g.whileStatement := by
  refine .of fun _ => ?_
  refine .bind (.orElse (keyword_takes _) (keyword_takes _)) fun _ => ?_
  exact .bind (condition_takes hg) fun _ => .bind (body_takes hg) fun _ => .done (by simp)

theorem doStatement_takes : Reads false true g.doStatement := by
  refine .of fun _ => ?_
  refine .bind (keyword_takes _) fun _ => ?_
  refine .bind (body_takes hg) fun _ => ?_
  refine .bind (keyword_takes _) fun _ => ?_
  refine .bind (condition_takes hg) fun _ => ?_
  exact .bind (taken_reads (sign_takes ";")) fun _ => .done (by simp)

theorem switchStatement_takes : Reads false true g.switchStatement := by
  refine .of fun _ => ?_
  refine .bind (keyword_takes _) fun _ => ?_
  refine .bind (condition_takes hg) fun _ => ?_
  refine .bind (sign_takes _) fun _ => ?_
  refine .bind (repeated_reads (t := true) ?_) fun _ => ?_
  · refine .of fun _ => ?_
    refine .bind (t := true) (.orElse (.seq (keyword_takes _) (hg.reads .expression)) ?_) fun _ => ?_
    · exact .of fun _ => .bind (keyword_takes _) fun _ => .done (by simp)
    · refine .bind (sign_takes ":") fun _ => ?_
      exact .bind (repeated_reads (body_takes hg)) fun _ => .done (by simp)
  · exact .bind (sign_takes _) fun _ => .done (by simp)

theorem tryStatement_takes : Reads false true g.tryStatement := by
  refine .of fun _ => ?_
  refine .bind (keyword_takes _) fun _ => ?_
  refine .bind (block_takes hg) fun _ => ?_
  refine .bind (.orPure (t := true) ?_ rfl) fun _ => ?_
  · refine .of fun _ => ?_
    refine .bind (keyword_takes _) fun _ => ?_
    refine .bind (.orPure (t := true) ?_ rfl) fun _ => ?_
    · refine .of fun _ => ?_
      refine .bind (sign_takes "(") fun _ => ?_
      refine .bind (hg.reads .binding) fun _ => ?_
      exact .bind (annotation_reads hg) fun _ => .bind (sign_takes ")") fun _ => .done (by simp)
    · exact .bind (block_takes hg) fun _ => .done (by simp)
  · exact .bind (.orPure (.seq (keyword_takes _) (block_takes hg)) rfl) fun _ => .done (by simp)

theorem jump_takes : Reads false true g.jump := by
  refine .of fun _ => ?_
  refine .bind word_takes fun _ => ?_
  refine .look (check_looks _) fun _ => ?_
  refine .look newline_looks fun _ => ?_
  refine .ite ?_ ?_
  · exact .bind (.pure rfl) fun _ => .bind semicolon_reads fun _ => .done (by simp)
  · refine .bind (.orPure (hg.reads .expression) rfl) fun _ => ?_
    exact .bind semicolon_reads fun _ => .done (by simp)

theorem labelled_takes : Reads false true g.labelled := by
  refine .of fun _ => ?_
  exact .bind plainName_takes fun _ => .bind (sign_takes ":") fun _ => .tail (body_takes hg) rfl

theorem functionStatement_takes : Reads false true g.functionStatement := by
  refine .of fun _ => ?_
  refine .bind (taken_reads async_takes) fun _ => ?_
  refine .bind (keyword_takes _) fun _ => ?_
  refine .bind (taken_reads (sign_takes "*")) fun _ => ?_
  refine .bind (taken_reads (t := true) ?_) fun _ => ?_
  · exact .of fun _ => .bind plainName_takes fun _ => .done (by simp)
  · refine .bind (signature_takes hg) fun _ => ?_
    refine .look (sees_looks _) fun _ => ?_
    refine .ite ?_ ?_
    · exact .bind (block_takes hg) fun _ => .done (by simp)
    · exact .look (check_looks _) fun _ => .bind semicolon_reads fun _ => .done (by simp)

theorem classStatement_takes : Reads false true g.classStatement := by
  refine .mark fun o => ?_
  refine .andThen (.forget (.tail (repeated_reads (decorator_takes hg)) rfl)) fun decorators =>
    .skip (taken_reads (t := true) (.lookAt (check_looks _) fun _ => keyword_takes _)) (by simp) fun _ =>
    ?_
  refine .congr (found_trees decorators) (.andThen (classTail_ensures hg decorators o) fun _ => ?_)
  exact .done (by simp)

theorem enumStatement_takes : Reads false true g.enumStatement := by
  refine .lookAt (check_looks _) fun _ => ?_
  refine .of fun _ => ?_
  refine .bind (taken_reads (keyword_takes _)) fun _ => ?_
  refine .bind (keyword_takes _) fun _ => ?_
  refine .bind word_takes fun _ => ?_
  refine .bind (sign_takes _) fun _ => ?_
  refine .bind (listed_reads (t := true) ?_) fun _ => ?_
  · refine .of fun _ => ?_
    refine .bind (propertyName_takes hg) fun _ => ?_
    exact .bind (fallback_reads hg) fun _ => .done (by simp)
  · exact .bind (sign_takes _) fun _ => .done (by simp)

omit hg in
theorem sameLineName_takes : Reads false true sameLineName := by
  refine .lookAt newline_looks fun _ => ?_
  refine .lookAt (check_looks _) fun _ => ?_
  exact .of fun _ => .bind plainName_takes fun _ => .done (by simp)

theorem typeStatement_takes : Reads false true g.typeStatement := by
  refine .lookAt (check_looks _) fun _ => ?_
  refine .of fun _ => ?_
  refine .bind (keyword_takes _) fun _ => ?_
  refine .bind sameLineName_takes fun _ => ?_
  refine .bind (typed_reads (typeParameters_takes hg)) fun _ => ?_
  refine .bind (sign_takes "=") fun _ => ?_
  exact .bind (hg.reads .type) fun _ => .bind semicolon_reads fun _ => .done (by simp)

theorem interfaceStatement_takes : Reads false true g.interfaceStatement := by
  refine .lookAt (check_looks _) fun _ => ?_
  refine .of fun _ => ?_
  refine .bind (keyword_takes _) fun _ => ?_
  refine .bind sameLineName_takes fun _ => ?_
  refine .bind (typed_reads (typeParameters_takes hg)) fun _ => ?_
  refine .bind (.orPure (t := true) ?_ rfl) fun _ => ?_
  · refine .of fun _ => ?_
    refine .bind (keyword_takes _) fun _ => ?_
    exact .bind (listed_reads (hg.reads .type)) fun _ => .done (by simp)
  · exact .bind (objectType_takes hg) fun _ => .done (by simp)

theorem namespaceStatement_takes : Reads false true g.namespaceStatement := by
  refine .lookAt (check_looks _) fun _ => .of fun _ =>
    .bind (.orElse (keyword_takes _) (keyword_takes _)) fun _ => .look newline_looks fun _ =>
    .look (check_looks _) fun _ => .bind (t := true) (.orElse ?_ ?_) fun _ =>
    .tail (t := false) (.orElse (block_takes hg).forget ?_) (by simp)
  · exact .of fun _ => .bind string_takes fun _ => .done (by simp)
  · exact .of fun _ => .bind plainName_takes fun _ => .tail qualifiedNames_reads (by simp)
  · exact .of fun _ => .bind semicolon_reads fun _ => .done (by simp)

theorem ambientStatement_takes : Reads false true g.ambientStatement := by
  refine .lookAt (check_looks _) fun _ => ?_
  refine .of fun _ => ?_
  refine .bind (keyword_takes _) fun _ => ?_
  refine .look newline_looks fun _ => ?_
  refine .look (check_looks _) fun _ => ?_
  refine .tail (t := true) (.orElse (.seq (keyword_takes _) (block_takes hg)) ?_) rfl
  refine .lookAt rest_looks fun _ => ?_
  refine .lookAt (sees_looks _) fun _ => ?_
  exact .lookAt (check_looks _) fun _ => hg.reads .statement

theorem importAttributes_takes : Reads false true g.importAttributes := by
  refine .of fun _ => ?_
  refine .bind (.orElse (keyword_takes _) (keyword_takes _)) fun _ => ?_
  exact .bind (object_takes hg) fun _ => .done (by simp)

omit hg in
theorem someWord_takes : Reads false true (do let _ ← word) :=
  .of fun _ => .bind word_takes fun _ => .done (by simp)

omit hg in
theorem someString_takes : Reads false true (do let _ ← string) :=
  .of fun _ => .bind string_takes fun _ => .done (by simp)

omit hg in
theorem nameList_takes : Reads false true g.nameList := by
  refine .of fun _ => ?_
  refine .bind (sign_takes _) fun _ => ?_
  refine .bind (repeated_reads (.orElse (sign_takes _) (.orElse someWord_takes someString_takes))) fun _ => ?_
  exact .tail (sign_takes _) (by simp)

theorem importStatement_takes : Reads false true g.importStatement := by
  refine .of fun _ => ?_
  refine .bind (keyword_takes _) fun _ => ?_
  refine .bind (repeated_reads (.orElse nameList_takes (.orElse (sign_takes _) ?_))) fun _ => ?_
  · exact .orElse (sign_takes _) someWord_takes
  refine .bind (taken_reads (sign_takes "=")) fun _ => ?_
  refine .ite ?_ ?_
  · refine .bind (t := true) (.orElse ?_ ?_) fun _ => .bind semicolon_reads fun _ => .done (by simp)
    · refine .of fun _ => ?_
      refine .bind (keyword_takes _) fun _ => ?_
      refine .bind (sign_takes "(") fun _ => ?_
      refine .bind string_takes fun _ => ?_
      exact .drop (List.nil_sublist _) (.tail (sign_takes ")") rfl)
    · exact .of fun _ => .bind word_takes fun _ => .tail qualifiedNames_reads (by simp)
  · refine .bind string_takes fun _ => ?_
    refine .bind (.orPure (importAttributes_takes hg) rfl) fun _ => ?_
    exact .bind semicolon_reads fun _ => .done (by simp)

theorem exportedNames_takes : Reads false true g.exportedNames := by
  refine .of fun _ => .bind (taken_reads (keyword_takes _)) fun _ => .bind (t := true)
    (.orElse (.seq (t := false) (sign_takes _) ?_) nameList_takes) fun _ =>
    .bind (.orPure (t := true) ?_ rfl) fun _ => .bind semicolon_reads fun _ => .done (by simp)
  · refine .of fun _ => ?_
    refine .bind (taken_reads (t := true) ?_) fun _ => ?_
    · exact .seq (keyword_takes _) (.orElse someString_takes someWord_takes)
    · exact .done (by simp)
  · refine .of fun _ => ?_
    refine .bind (keyword_takes _) fun _ => ?_
    refine .bind string_takes fun _ => ?_
    exact .drop (List.nil_sublist _) (.tail (.orPure (importAttributes_takes hg) rfl) rfl)

theorem exportedDefault_takes : Reads false true g.exportedDefault := by
  refine .seq (t := true) (keyword_takes _) ?_
  refine .orElse (functionStatement_takes hg) ?_
  refine .orElse (classStatement_takes hg) ?_
  refine .orElse (interfaceStatement_takes hg) ?_
  refine .of fun _ => ?_
  exact .bind (assignment_takes hg) fun _ => .bind semicolon_reads fun _ => .done (by simp)

theorem exportStatement_takes : Reads false true g.exportStatement := by
  refine .of fun _ => .bind (repeated_reads (decorator_takes hg)) fun _ => .bind (keyword_takes _) fun _ =>
    .bind (t := true) (.orElse (exportedDefault_takes hg) (.orElse (exportedNames_takes hg)
      (.orElse ?_ (.orElse ?_ (hg.reads .statement))))) fun _ => .done (by simp)
  · refine .of fun _ => ?_
    refine .bind (sign_takes "=") fun _ => ?_
    exact .bind (hg.reads .expression) fun _ => .bind semicolon_reads fun _ => .done (by simp)
  · refine .of fun _ => ?_
    refine .bind (keyword_takes _) fun _ => ?_
    refine .bind (keyword_takes _) fun _ => ?_
    exact .bind word_takes fun _ => .bind semicolon_reads fun _ => .done (by simp)

theorem declaration_takes : Reads true true g.declaration := by
  refine .of fun _ => ?_
  exact .bind (declarators_takes hg) fun _ => .bind semicolon_reads fun _ => .done (by simp)

theorem wordStatement_takes (first : String) : Reads true true (g.wordStatement first) := by
  unfold wordStatement
  split
  · exact forStatement_takes hg
  · exact (ifStatement_takes hg).loosen
  · exact (whileStatement_takes hg).loosen
  · exact (whileStatement_takes hg).loosen
  · exact (doStatement_takes hg).loosen
  · exact (switchStatement_takes hg).loosen
  · exact (tryStatement_takes hg).loosen
  · exact (jump_takes hg).loosen
  · exact (jump_takes hg).loosen
  · exact (jump_takes hg).loosen
  · exact (jump_takes hg).loosen
  · exact (jump_takes hg).loosen
  · exact (functionStatement_takes hg).loosen
  · exact (functionStatement_takes hg).loosen
  · exact (classStatement_takes hg).loosen
  · exact (classStatement_takes hg).loosen
  · exact declaration_takes hg
  · exact declaration_takes hg
  · exact .orElse (enumStatement_takes hg).loosen (declaration_takes hg)
  · exact (enumStatement_takes hg).loosen
  · refine .lookAt (ahead_looks _) fun _ => ?_
    exact .lookAt (check_looks _) fun _ => (importStatement_takes hg).loosen
  · exact (exportStatement_takes hg).loosen
  · exact (typeStatement_takes hg).loosen
  · exact (interfaceStatement_takes hg).loosen
  · exact (namespaceStatement_takes hg).loosen
  · exact (namespaceStatement_takes hg).loosen
  · exact (ambientStatement_takes hg).loosen
  · exact .of fun _ => .failure

theorem expressionStatement_takes : Reads false true g.expressionStatement := by
  refine .mark fun _ => ?_
  refine .bind (hg.reads .expression) fun _ => ?_
  exact .bind semicolon_reads fun _ => .andThen (.node rfl (by simp)) fun _ => .done (by simp)

omit hg in
theorem documentComment_takes : Reads false true documentComment := by
  refine .lookAt (sees_looks _) fun _ => ?_
  refine .lookAt (sees_looks _) fun _ => ?_
  refine .lookAt (check_looks _) fun _ => ?_
  exact .lookAt rest_looks fun _ => .seq (bare_takes _) settle_reads

theorem statementRule_takes : Reads false true g.statementRule := by
  refine .of fun _ => ?_
  refine .bind (repeated_reads documentComment_takes) fun _ => ?_
  refine .look next?_looks fun next => ?_
  split
  · exact .bind (token_takes 1) fun _ => .done (by simp)
  · exact .tail (block_takes hg) (by simp)
  · refine .tail (t := true) (.mark fun o => ?_) (by simp)
    refine .bind (.orElse (exportStatement_takes hg) (classStatement_takes hg)) fun _ => ?_
    exact .andThen (.node rfl (by simp)) fun _ => .done (by simp)
  · refine .tail (t := true) (.mark fun o => .look rest_looks fun _ => ?_) (by simp)
    -- variables that the statement declares go into the tree around it
    have hstatement (first : String) : Ensures (Since false o false []) (do
        let trees ← g.wordStatement first
        return [← node .other o.start trees]) fun ts => Since false o true (found ts) :=
      .loosen <| .bind (wordStatement_takes hg first) fun _ =>
        .andThen (.nodeOther (by simp)) fun _ => .done (by simp)
    exact .ite (hstatement _) (.orElse (hstatement _)
      (.tail (.orElse (labelled_takes hg) (expressionStatement_takes hg)) rfl))
  · exact .failure

theorem step_takes (goal : Goal) : Reads false true (step g goal) := by
  have hone {p : Reader Tree} (hp : Reads false true p) : Reads false true (do return [← p]) :=
    .of fun _ => .bind hp fun _ => .done (by simp)
  cases goal with
  | statement => exact statementRule_takes hg
  | expression => exact hone (expressionRule_takes hg)
  | assignment resultTypes => exact hone (assignmentRule_takes hg resultTypes)
  | unary => exact hone (unary_takes hg)
  | element => exact hone (element_takes hg)
  | type => exact type_takes hg
  | binding => exact hone (binding_takes hg)
  | parameters => exact parameters_takes hg

omit hg in
theorem answers_single (p : Reader Tree) : Answers (do return [← p]) := by
  intro c ts c' h
  obtain ⟨t, m, -, h⟩ := bind_eq_some.mp h
  obtain ⟨rfl, -⟩ := pure_eq_some.mp h
  exact List.cons_ne_nil t []

omit hg in
/-- The grammar keeps its promise at every depth. -/
theorem answer_takes (dialect : Dialect) (depth : Nat) :
    Takes ⟨dialect, depth, answer dialect depth⟩ := by
  induction depth with
  | zero =>
    have hnone (goal : Goal) : Answers (answer dialect 0 goal) := fun _ _ _ h => nomatch h
    exact ⟨fun _ => .of fun _ => .failure, fun resultTypes => hnone (.assignment resultTypes)⟩
  | succ depth ih => exact ⟨step_takes ih, fun _ => answers_single _⟩

end Grammar

theorem program_reads (dialect : Dialect) (depth : Nat) : Reads false false (program dialect depth) := by
  refine .of fun _ => ?_
  refine .skip (t := false) ?_ (by simp) fun _ => ?_
  · refine .lookAt (sees_looks _) fun _ => ?_
    refine .ite ?_ (.pure rfl)
    exact .forget (.lookAt rest_looks fun _ => bare_takes _)
  · refine .skip settle_reads (by simp) fun _ => ?_
    refine .bind (many_reads ((Grammar.answer_takes dialect depth).reads _) depth) fun _ => ?_
    refine .bind (many_reads Grammar.documentComment_takes depth) fun _ => ?_
    exact .look rest_looks fun _ => .look (check_looks _) fun _ => .done (by simp)

section

variable {dialect : Dialect} {text : List Char} {trees : List Tree}

theorem parse?_since (h : parse? dialect text = some trees) :
    ∃ c, Since false ⟨text, 0, 0⟩ false trees c := by
  obtain ⟨⟨ts, c⟩, hrun, rfl⟩ := Option.map_eq_some_iff.mp h
  have hstart : (Cursor.start text).Stands text := ⟨⟨[], rfl, rfl⟩, Nat.le_refl _⟩
  have hsince := program_reads dialect _ text (.start text) ts c hstart hrun
  rw [found_trees] at hsince
  exact ⟨c, hsince⟩

/-- The trees of a script stand in a row within it. -/
theorem parse?_row (h : parse? dialect text = some trees) : Row false 0 (byteLength text) trees := by
  obtain ⟨c, hsince⟩ := parse?_since h
  exact hsince.row.weaken (Nat.le_refl _) (Nat.le_trans hsince.stands.sane hsince.stands.offset_le)

/-- The trees of a script are spelled as it is where they stand. -/
theorem parse?_spelled (h : parse? dialect text = some trees) : ∀ t ∈ trees, t.Spelled text := by
  obtain ⟨c, hsince⟩ := parse?_since h
  exact hsince.spelled

end

end ClassSort.Script
