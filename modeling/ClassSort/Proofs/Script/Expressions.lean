import ClassSort.Proofs.Script.Operators
import ClassSort.Script.Expressions

/-!
Expressions find trees where they move. A suffix puts a tree around the expression in front of it,
and begins where that begins.
-/

namespace ClassSort.Script

open Script.Tree Reader
open Finds (found)

variable {o : Outset}

namespace Grammar

section

variable {g : Grammar}

theorem seesName_looks : Looks seesName := by
  refine .bind next?_looks fun next => ?_
  split
  · exact .bind rest_looks fun _ => .pure _
  · exact .pure _

theorem seesParameters_looks : Looks g.seesParameters :=
  .bind (sees_looks _) fun _ => .bind (sees_looks _) fun _ => .pure _

theorem endsInstance_looks : Looks endsInstance := by
  refine .bind rest_looks fun cs => ?_
  split
  · exact .pure _
  · refine .bind newline_looks fun _ => ?_
    refine .bind (sees_looks _) fun _ => ?_
    refine .bind (sees_looks _) fun _ => ?_
    exact .bind (sees_looks _) fun _ => .bind (sees_looks _) fun _ => .pure _

theorem modifiers_reads (words : List String) : Reads false false (g.modifiers words) := by
  refine .of fun _ => ?_
  refine .skip (repeated_reads (t := true) ?_) (by simp) fun _ => ?_
  · refine .orElse (sign_takes "*") (.of fun _ => ?_)
    refine .bind word_takes fun _ => ?_
    refine .look (check_looks _) fun _ => ?_
    refine .tail (t := false) ?_ rfl
    exact .lookAt (sees_looks _) fun _ => .lookAt seesName_looks fun _ => .look (check_looks _) fun _ => rfl
  · exact .done (by simp)

/-- Without words in front nothing was read yet. -/
theorem modifiers_ensures (words : List String) : Ensures (At o) (g.modifiers words)
    fun modified c => Since false o false [] c ∧ (modified = false → At o c) := by
  intro c modified c' hc h
  refine ⟨(modifiers_reads words).ensures c modified c' hc.since h, fun hnone => ?_⟩
  obtain ⟨words, m, hwords, h⟩ := bind_eq_some.mp h
  obtain ⟨hsome, rfl⟩ := pure_eq_some.mp h
  obtain rfl : words = [] := by simpa [hnone] using hsome
  exact many_nil hwords ▸ hc

theorem constant_takes : Reads false true constant := by
  refine .mark fun _ => ?_
  exact .bind word_takes fun _ => .look (check_looks _) fun _ => .node rfl (by simp)

theorem memberName_takes : Reads false true memberName := by
  refine .markAt fun _ => .orElse (.left (.tail privateName_takes rfl)) ?_
  exact .andThen word_named fun _ => .nodeName (.inr rfl)

/-- The word in front of a function, on the same line. -/
theorem async_takes : Reads false true (do
    keyword "async"
    check !(← newline)) := by
  refine .seq (t := false) (keyword_takes _) ?_
  exact .lookAt newline_looks fun _ => .look (check_looks _) fun _ => rfl

end

variable {g : Grammar} (hg : g.Takes)
include hg

theorem functionTail_takes : Reads false true g.functionTail := by
  refine .of fun _ => ?_
  exact .bind (signature_takes hg) fun _ => .bind (block_takes hg) fun _ => .done (by simp)

theorem fallback_nil {c c' : Cursor} (h : g.fallback c = some ([], c')) : c' = c := by
  rcases orElse_eq_some h with h | h
  · obtain ⟨_, _, _, h⟩ := bind_eq_some.mp h
    obtain ⟨_, _, _, h⟩ := bind_eq_some.mp h
    obtain ⟨_, _, _, h⟩ := bind_eq_some.mp h
    obtain ⟨_, _, _, h⟩ := bind_eq_some.mp h
    exact absurd rfl (hg.assignment true _ _ _ h)
  · exact (pure_eq_some.mp h).2.symm

omit hg in
/-- The cursor is behind a name, which began at the outset unless it was `modified`. -/
structure Keyed (o : Outset) (modified : Bool) (name : Tree) (c : Cursor) : Prop where
  since : Since false o true [name] c
  reaches : modified = false → Reaching o name c

theorem key_ensures (modified : Bool) : Ensures
    (fun c => Since false o false [] c ∧ (modified = false → At o c)) g.propertyName (Keyed o modified) :=
  fun c x c' hc h => ⟨(propertyName_takes hg).ensures c x c' hc.1 h,
    fun hplain => propertyName_reaching c x c' (hc.2 hplain) h⟩

/-- A name that is all there is of an entry, or a name with a value for want of one. -/
theorem shorthand_ensures {name : Tree} (hname : name.form = .propertyName) :
    Ensures (Keyed o false name) (do
      let otherwise ← g.fallback
      if otherwise.isEmpty then node .shorthand o.start [] else node .other o.start (name :: otherwise))
    fun t => Since false o true (found t) := by
  intro c t c' hc h
  obtain ⟨otherwise, m, hvalue, hnode⟩ := bind_eq_some.mp h
  cases otherwise with
  | nil =>
    obtain rfl := fallback_nil hg hvalue
    obtain ⟨rfl, rfl⟩ := node_eq_some.mp hnode
    obtain ⟨form, s, inside⟩ := name
    obtain rfl : form = .propertyName := hname
    obtain rfl : s = ⟨o.start, m.last⟩ := hc.reaches rfl
    have hspelled := (hc.since.spelled _ List.mem_cons_self).form
    exact hc.since.node (List.nil_sublist _) (by simp) trivial hspelled (by simp) (.inr rfl)
  | cons value values =>
    exact Ensures.node rfl (by simp) m t c' ((fallback_reads hg).ensures c _ m hc.since hvalue) hnode

theorem objectMember_takes : Reads false true g.objectMember := by
  refine .markAt fun o => ?_
  refine .look (sees_looks _) fun _ => ?_
  refine .ite ?_ ?_
  · refine .left (.bind (token_takes 3) fun _ => ?_)
    exact .bind (assignment_takes hg) fun _ => .node rfl (by simp)
  · refine .andThen (modifiers_ensures _) fun modified => ?_
    refine .andThen (key_ensures hg modified) fun name => ?_
    refine .look seesParameters_looks fun _ => ?_
    refine .ite ?_ ?_
    · exact .weaken (fun _ => Keyed.since) (.bind (functionTail_takes hg) fun _ => .node rfl (by simp))
    · refine .check fun hplain => ?_
      obtain rfl : modified = false := by simpa using hplain
      refine .andThen (taken_ensures (.weaken (fun _ => Keyed.since) (sign_takes ":").ensures)) fun colon => ?_
      cases colon with
      | true =>
        refine .weaken (fun c ⟨_, h⟩ => show Since false o true [name] c from h) ?_
        exact .bind (assignment_takes hg) fun _ => .node rfl (by simp)
      | false => exact .check fun hform => shorthand_ensures hg (by simpa using hform)

theorem object_takes : Reads false true g.object := by
  refine .mark fun _ => ?_
  refine .bind (sign_takes _) fun _ => ?_
  refine .bind (listed_reads (objectMember_takes hg)) fun _ => ?_
  exact .bind (sign_takes _) fun _ => .node rfl (by simp)

omit hg in
/-- A name, if there is one. -/
theorem optionalName_reads : Reads false false ((do return [← identifier]) <|> pure []) :=
  .orPure (t := true) (.of fun _ => .bind identifier_takes fun _ => .done (by simp)) rfl

theorem function_takes : Reads false true g.function := by
  refine .mark fun _ => ?_
  refine .bind (taken_reads async_takes) fun _ => ?_
  refine .bind (keyword_takes _) fun _ => ?_
  refine .bind (taken_reads (sign_takes "*")) fun _ => ?_
  refine .bind optionalName_reads fun _ => ?_
  exact .bind (functionTail_takes hg) fun _ => .node rfl (by simp)

theorem memberTail_takes : Reads false true g.memberTail := by
  have hname : Reads false true ((do
      check g.dialect.hasTypes
      sign "["
      let _ ← word
      sign ":"
      let t ← g.parse .type
      sign "]"
      return t) <|> (do return [← g.propertyName])) := by
    refine .orElse ?_ ?_
    · refine .lookAt (check_looks _) fun _ => .of fun _ => ?_
      refine .bind (sign_takes "[") fun _ => ?_
      refine .bind word_takes fun _ => ?_
      refine .bind (sign_takes ":") fun _ => ?_
      exact .bind (hg.reads .type) fun _ => .bind (sign_takes "]") fun _ => .done (by simp)
    · exact .of fun _ => .bind (propertyName_takes hg) fun _ => .done (by simp)
  refine .lookAt (ahead_looks _) fun _ => ?_
  refine .ite (.seq (keyword_takes _) (block_takes hg)) ?_
  refine .of fun _ => ?_
  refine .bind (modifiers_reads _) fun _ => ?_
  refine .bind hname fun _ => ?_
  refine .bind (taken_reads (.orElse (sign_takes "?") (sign_takes "!"))) fun _ => ?_
  refine .look seesParameters_looks fun _ => ?_
  refine .ite ?_ ?_
  · refine .bind (signature_takes hg) fun _ => ?_
    refine .look (sees_looks _) fun _ => ?_
    refine .ite (.bind (block_takes hg) fun _ => .done (by simp)) ?_
    refine .bind (t := false) ?_ fun _ => .done (by simp)
    refine .lookAt (check_looks _) fun _ => ?_
    exact .of fun _ => .bind semicolon_reads fun _ => .done (by simp)
  · refine .bind (annotation_reads hg) fun _ => ?_
    exact .bind (fallback_reads hg) fun _ => .bind semicolon_reads fun _ => .done (by simp)

theorem classMember_reads : Reads false false g.classMember := by
  refine .of fun _ => ?_
  refine .bind (taken_reads (sign_takes ";")) fun _ => ?_
  refine .ite (.done (by simp)) ?_
  exact .forget <| .bind (repeated_reads (decorator_takes hg)) fun _ =>
    .bind (memberTail_takes hg) fun _ => .done (by simp)

theorem heritage_reads : Reads false false g.heritage := by
  refine .of fun _ => .bind (.orPure (t := true) ?_ rfl) fun _ => .bind (typed_reads (t := true) ?_)
    fun _ => .done (by simp)
  · refine .seq (t := false) (keyword_takes _) (.of fun _ => ?_)
    refine .bind (listed_reads (t := true) (.of fun _ => ?_)) fun _ => .done (by simp)
    refine .bind (one_takes hg _) fun _ => ?_
    exact .bind (typed_reads (typeArguments_takes hg)) fun _ => .done (by simp)
  · refine .of fun _ => ?_
    refine .bind (keyword_takes _) fun _ => ?_
    exact .bind (listed_reads (hg.reads .type)) fun _ => .done (by simp)

theorem classTail_ensures (decorators : List Tree) (o : Outset) :
    Ensures (Since false o false decorators) (g.classTail o.start decorators)
      fun t => Since false o true (found t) := by
  refine .bind (keyword_takes _) fun _ => ?_
  refine .bind (.orPure (t := true) ?_ rfl) fun _ => ?_
  · refine .lookAt (seesKeyword_looks _) fun _ => ?_
    refine .lookAt (check_looks _) fun _ => ?_
    exact .of fun _ => .bind identifier_takes fun _ => .done (by simp)
  · refine .bind (typed_reads (typeParameters_takes hg)) fun _ => ?_
    refine .bind (heritage_reads hg) fun _ => ?_
    refine .bind (sign_takes _) fun _ => ?_
    refine .bind (repeated_reads (classMember_reads hg)) fun _ => ?_
    exact .bind (sign_takes _) fun _ => .node rfl (by simp)

theorem classExpression_takes : Reads false true g.classExpression :=
  .mark fun _ => .andThen (.forget (.tail (repeated_reads (decorator_takes hg)) rfl)) fun _ =>
    .congr (found_trees _) (classTail_ensures hg _ _)

/-! Suffixes. -/

def Suffixes (step : Nat → Tree → Reader Tree) : Prop :=
  ∀ o e, Ensures (Since false o true [e]) (step o.start e) fun t => Since false o true (found t)

omit hg in
theorem memberName_ensures (o : Outset) (e : Tree) : Ensures (Since false o true [e])
    (do node .member o.start [e, ← memberName]) fun t => Since false o true (found t) :=
  .bind memberName_takes fun _ => .node rfl (by simp)

theorem index_suffixes : Suffixes g.index := by
  intro o e
  refine .bind (sign_takes "[") fun _ => ?_
  refine .bind (hg.reads .expression) fun _ => ?_
  exact .bind (sign_takes "]") fun _ => .node rfl (by simp)

theorem memberStep_suffixes : Suffixes g.memberStep := by
  intro o e
  refine .look next?_looks fun next => ?_
  split
  · refine .look (sees_looks _) fun _ => ?_
    refine .look (check_looks _) fun _ => ?_
    exact .skip (token_takes 1) (by simp) fun _ => memberName_ensures o e
  · exact index_suffixes hg o e
  · refine .bindFor (template_takes (hg.reads .expression))
      (fun _ _ _ => template_form) fun _ hform => ?_
    exact .nodeCall (by simp) (by simp [hform])
  · exact .failure

theorem call_ensures (o : Outset) (e : Tree) (types : List Tree) :
    Ensures (Since false o true (e :: types))
      (do node .call o.start (e :: types ++ [← g.arguments]))
      fun t => Since false o true (found t) := by
  refine .bindFor (arguments_takes hg) (fun _ _ _ => arguments_form) fun _ hform => ?_
  exact .nodeCall (by simp) (by simp [List.getLast?_cons, hform])

theorem suffix_suffixes : Suffixes g.suffix := by
  intro o e
  refine .look (sees_looks _) fun _ => .ite (call_ensures hg o e []) ?_
  refine .look (sees_looks _) fun _ => ?_
  refine .look rest_looks fun _ => ?_
  refine .ite ?_ ?_
  · refine .skip (token_takes 2) (by simp) fun _ => ?_
    refine .look next?_looks fun next => ?_
    split
    · exact call_ensures hg o e []
    · exact index_suffixes hg o e
    · refine .look (check_looks _) fun _ => ?_
      refine .bind (typeArguments_takes hg) fun types => ?_
      exact .congr (by simp) (call_ensures hg o e types)
    · exact memberName_ensures o e
  · refine .look (sees_looks _) fun _ => ?_
    refine .ite ?_ ?_
    · refine .bind (typeArguments_takes hg) fun types => ?_
      refine .congr (show _ = e :: types by simp) ?_
      refine .look (sees_looks _) fun _ => .ite (call_ensures hg o e types) ?_
      exact .look endsInstance_looks fun _ => .look (check_looks _) fun _ => .node rfl (by simp)
    · refine .look (sees_looks _) fun _ => ?_
      refine .look (sees_looks _) fun _ => ?_
      refine .look newline_looks fun _ => ?_
      refine .ite ?_ (memberStep_suffixes hg o e)
      exact .bind (token_takes 2) fun _ => .node rfl (by simp)

omit hg in
theorem suffixes_suffixes {step : Nat → Tree → Reader Tree} (hstep : Suffixes step) (fuel : Nat) :
    Suffixes fun start e => suffixes step start fuel e := by
  induction fuel with
  | zero => exact fun _ _ => .done (by simp)
  | succ fuel ih =>
    intro o e
    refine .andThen (attempt_ensures (hstep o e)) fun next => ?_
    rcases next with _ | longer
    · exact .done (by simp)
    · exact ih o longer

theorem withSuffixes_extends : Extends g.withSuffixes := by
  intro o e c x c' hc hx
  have h := suffixes_suffixes (suffix_suffixes hg) g.fuel _ e c x c' hc.focus hx
  exact h.widen hc.row.start

/-! Operands. -/

theorem importExpression_takes : Reads false true g.importExpression := by
  refine .mark fun _ => ?_
  refine .bind (keyword_takes _) fun _ => ?_
  exact .andThen (.node rfl (by simp)) fun called => .look (sees_looks _) fun _ =>
    .ite (call_ensures hg _ called []) <| .bind (sign_takes ".") fun _ => .bind word_takes fun _ =>
    .node rfl (by simp)

theorem grouping_takes : Reads false true g.grouping := by
  refine .mark fun _ => ?_
  refine .bind (sign_takes "(") fun _ => ?_
  refine .bind (hg.reads .expression) fun _ => ?_
  exact .bind (annotation_reads hg) fun _ => .bind (sign_takes ")") fun _ => .node rfl (by simp)

theorem regularOrElement_takes : Reads false true g.regularOrElement := by
  refine .lookAt (sees_looks _) fun _ => ?_
  refine .ite ?_ pattern_takes
  exact .of fun _ => .bind (one_takes hg _) fun _ => .bind settle_reads fun _ => .done (by simp)

theorem named_takes : Reads false true g.named := by
  refine .lookAt (seesKeyword_looks _) fun _ => ?_
  refine .ite (function_takes hg) ?_
  refine .lookAt (seesKeyword_looks _) fun _ => ?_
  refine .ite (classExpression_takes hg) ?_
  refine .lookAt (seesKeyword_looks _) fun _ => ?_
  refine .ite (importExpression_takes hg) ?_
  refine .lookAt (seesKeyword_looks _) fun _ => ?_
  exact .ite (.orElse (function_takes hg) identifier_takes) (.orElse constant_takes identifier_takes)

theorem primary_takes : Reads false true g.primary := by
  refine .lookAt next?_looks fun next => ?_
  split
  · exact grouping_takes hg
  · exact array_takes hg
  · exact object_takes hg
  · exact template_takes (hg.reads .expression)
  · exact privateName_takes
  · exact classExpression_takes hg
  · exact .ite string_takes (.ite (regularOrElement_takes hg) (.ite number_takes (named_takes hg)))
  · exact .of fun _ => .failure

theorem constructed_takes : Reads false true g.constructed := by
  refine .mark fun _ => ?_
  refine .look (seesKeyword_looks _) fun _ => ?_
  refine .ite ?_ ?_
  · exact .bind (one_takes hg _) fun _ => suffixes_suffixes (memberStep_suffixes hg) _ _ _
  · exact .bind (primary_takes hg) fun _ => suffixes_suffixes (memberStep_suffixes hg) _ _ _

theorem newExpression_takes : Reads false true g.newExpression := by
  refine .mark fun _ => ?_
  refine .bind (keyword_takes _) fun _ => ?_
  refine .bind (taken_reads (.seq (sign_takes ".") (keyword_takes _))) fun _ => ?_
  refine .ite (.node rfl (by simp)) ?_
  refine .bind (constructed_takes hg) fun _ => ?_
  refine .bind (typed_reads (t := true) ?_) fun _ => ?_
  · refine .of fun _ => ?_
    refine .bind (typeArguments_takes hg) fun _ => ?_
    exact .look (sees_looks _) fun _ => .look (check_looks _) fun _ => .done (by simp)
  · refine .look (sees_looks _) fun _ => ?_
    exact .ite (.bind (arguments_takes hg) fun _ => .node rfl (by simp)) (.node rfl (by simp))

theorem awaited_extends (fuel : Nat) : Extends (g.awaited fuel) := by
  induction fuel with
  | zero => exact fun _ _ => .done (by simp)
  | succ fuel ih =>
    intro o e
    refine .bind (attempt_reads (assertedType_takes hg)) fun next => ?_
    rcases next with _ | types
    · refine .congr (List.append_nil _) <|
        .skip (taken_reads assertedValue_takes) (by simp) fun _ => .ite ?_ (.done (by simp))
      exact .andThen (.nodeAt rfl (by simp)) fun asserted =>
        .andThen (withSuffixes_extends hg o asserted) fun _ => ih o _
    · exact .congr (congrArg _ (found_trees types)) <|
        .andThen (.nodeAt rfl (List.Sublist.refl (e :: types))) fun _ => ih o _

omit hg in
theorem prefixSign_takes : Reads false true prefixSign := by
  refine .lookAt (sees_looks _) fun _ => ?_
  refine .lookAt (sees_looks _) fun _ => ?_
  refine .ite (token_takes 2) ?_
  refine .lookAt next?_looks fun next => ?_
  split
  · exact .lookAt (check_looks _) fun _ => token_takes 1
  · exact .of fun _ => .failure

theorem unary_takes : Reads false true g.unary := by
  have hoperand (o : Outset) : Ensures (Since false o false []) (do g.withSuffixes (← g.primary))
      fun t => Since false o true (found t) :=
    .bind (primary_takes hg) fun e => withSuffixes_extends hg o e
  refine .mark fun o => ?_
  refine .bind (taken_reads prefixSign_takes) fun _ => ?_
  refine .ite ?_ ?_
  · exact .bind (one_takes hg _) fun _ => .node rfl (by simp)
  · refine .look (seesKeyword_looks _) fun _ => ?_
    refine .look (seesKeyword_looks _) fun _ => ?_
    refine .look (seesKeyword_looks _) fun _ => ?_
    refine .ite ?_ ?_
    · exact .bind word_takes fun _ => .bind (one_takes hg _) fun _ => .node rfl (by simp)
    · refine .look (seesKeyword_looks _) fun _ => .ite (.orElse ?_ (hoperand o)) ?_
      · refine .bind word_takes fun _ => ?_
        refine .bind (one_takes hg _) fun e => ?_
        exact .andThen (awaited_extends hg _ o e) fun _ => .node rfl (by simp)
      · refine .look (sees_looks _) fun _ => ?_
        refine .ite ?_ ?_
        · refine .bind (typeArguments_takes hg) fun _ => ?_
          exact .bind (one_takes hg _) fun _ => .node rfl (by simp)
        · refine .look (seesKeyword_looks _) fun _ => ?_
          refine .ite ?_ (hoperand o)
          exact .bind (newExpression_takes hg) fun e => withSuffixes_extends hg o e

/-! Functions without a name, and assignments. -/

theorem arrow_takes (resultTypes : Bool) : Reads false true (g.arrow resultTypes) := by
  have hparameters : Reads false true (do
      check (← g.seesParameters)
      let types ← g.typed g.typeParameters
      let parameters ← g.parse .parameters
      let result ← if resultTypes then g.annotation else pure []
      return types ++ parameters ++ result) := by
    refine .lookAt seesParameters_looks fun _ => ?_
    refine .lookAt (check_looks _) fun _ => .of fun _ => ?_
    refine .bind (typed_reads (typeParameters_takes hg)) fun _ => ?_
    refine .bind (hg.reads .parameters) fun _ => ?_
    exact .ite (.bind (annotation_reads hg) fun _ => .done (by simp)) (.done (by simp))
  refine .mark fun _ => ?_
  refine .bind (taken_reads (t := true) ?_) fun _ => ?_
  · refine .seq (t := false) (keyword_takes _) ?_
    refine .lookAt newline_looks fun _ => ?_
    refine .lookAt seesParameters_looks fun _ => ?_
    exact .lookAt rest_looks fun _ => .look (check_looks _) fun _ => rfl
  · refine .bind (t := true) (.orElse ?_ hparameters) fun _ => ?_
    · refine .of fun _ => .bind identifier_takes fun _ => ?_
      exact .look (sees_looks _) fun _ => .look (check_looks _) fun _ => .done (by simp)
    · refine .look newline_looks fun _ => ?_
      refine .look (check_looks _) fun _ => ?_
      refine .bind (sign_takes "=>") fun _ => ?_
      refine .look (sees_looks _) fun _ => .ite ?_ ?_
      · exact .bind (block_takes hg) fun _ => .node rfl (by simp)
      · exact .bind (hg.reads _) fun _ => .node rfl (by simp)

theorem yielded_takes : Reads false true g.yielded := by
  refine .mark fun _ => ?_
  refine .bind (keyword_takes _) fun _ => ?_
  refine .look newline_looks fun _ => ?_
  refine .ite (.node rfl (by simp)) ?_
  refine .bind (taken_reads (sign_takes "*")) fun _ => ?_
  refine .bind (attempt_reads (assignment_takes hg)) fun value => ?_
  rcases value with _ | e
  · exact .node rfl (by simp)
  · exact .node rfl (by simp)

omit hg in
theorem assignmentSign_takes : Reads false true assignmentSign := by
  refine .lookAt (sees_looks _) fun _ => ?_
  refine .lookAt (sees_looks _) fun _ => ?_
  refine .lookAt (check_looks _) fun _ => ?_
  refine .lookAt rest_looks fun cs => ?_
  split
  · exact token_takes _
  · exact .of fun _ => .failure

theorem consequent_takes : Reads false true g.consequent := by
  refine .orElse ?_ ?_
  · refine .of fun _ => ?_
    exact .bind (one_takes hg _) fun _ => .bind (sign_takes ":") fun _ => .done (by simp)
  · refine .of fun _ => ?_
    exact .bind (one_takes hg _) fun _ => .bind (sign_takes ":") fun _ => .done (by simp)

theorem assignmentRule_takes (resultTypes : Bool) :
    Reads false true (g.assignmentRule resultTypes) := by
  refine .orElse (arrow_takes hg resultTypes) ?_
  refine .orElse (yielded_takes hg) ?_
  refine .of fun o => ?_
  refine .bind (one_takes hg _) fun first => ?_
  refine .andThen (operations_ensures hg (withSuffixes_extends hg) g.fuel [] first o) fun e =>
    .bind (taken_reads assignmentSign_takes) fun _ => .ite ?_ ?_
  · exact .bind (one_takes hg _) fun _ => .nodeAt rfl (by simp)
  · refine .look (sees_looks _) fun _ => ?_
    refine .look (sees_looks _) fun _ => ?_
    refine .ite ?_ (.done (by simp))
    refine .bind (token_takes 1) fun _ => ?_
    refine .bind (consequent_takes hg) fun _ => ?_
    exact .bind (one_takes hg _) fun _ => .nodeAt rfl (by simp)

theorem expressionRule_takes : Reads false true g.expressionRule := by
  refine .mark fun _ => ?_
  refine .bind (assignment_takes hg) fun _ => ?_
  refine .bind (repeated_reads (.seq (sign_takes ",") (assignment_takes hg))) fun _ => ?_
  exact .ite (.done (by simp)) (.node rfl (by simp))

end Grammar

end ClassSort.Script
