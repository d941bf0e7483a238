import ClassSort.Proofs.Script.Phrases
import ClassSort.Script.Types

/-!
Types find the calls in them where they move. A template that is a type is taken apart again: what
stands in its substitutions follows in the order of the text.
-/

namespace ClassSort.Script

open Script.Tree Reader
open Finds (found)

namespace Grammar

theorem substitutions_row {a b : Nat} {declares : Bool} {ts : List Tree} (h : Row declares a b ts)
    (hforms : ∀ t ∈ ts, t.form = .substitution) : Row false a b (ts.flatMap Tree.children) := by
  induction ts generalizing a with
  | nil => exact row_nil
  | cons t ts ih =>
    obtain ⟨hstart, hsound, -, hstop, hrest⟩ := row_cons.mp h
    obtain ⟨form, s, kids⟩ := t
    obtain rfl : form = .substitution := hforms _ List.mem_cons_self
    obtain ⟨hordered, hsize, -, hkids⟩ := sound_node.mp hsound
    have hsize := hsize rfl
    simp only [Form.inside, Tree.span] at hstart hstop hkids hrest
    have hothers := ih hrest fun t ht => hforms t (List.mem_cons_of_mem _ ht)
    exact Row.append (Row.weaken hkids (by omega) (Nat.sub_le ..)) hothers (by omega) (Nat.le_refl _) hstop

variable {g : Grammar} (hg : g.Takes)

include hg

theorem importCall_takes : Reads false true g.importCall := by
  refine .mark fun _ => ?_
  refine .bind (keyword_takes _) fun _ => ?_
  exact .andThen (.node rfl (by simp)) fun _ =>
    .bindFor (arguments_takes hg) (fun _ _ _ => arguments_form) fun _ hform =>
    .nodeCall (by simp) (by simp [hform])

omit hg in
theorem qualifiedNames_reads : Reads false false g.qualifiedNames := by
  refine .of fun _ => ?_
  refine .bind (repeated_reads (t := true) ?_) fun _ => ?_
  · refine .lookAt (sees_looks _) fun _ => ?_
    refine .lookAt (check_looks _) fun _ => ?_
    refine .seq (t := true) (sign_takes ".") ?_
    refine .of fun _ => ?_
    refine .bind (t := true) ?_ fun _ => ?_
    · refine .orElse ?_ ?_
      · exact .of fun _ => .bind privateName_takes fun _ => .done (by simp)
      · exact .of fun _ => .bind word_takes fun _ => .done (by simp)
    · exact .done (by simp)
  · exact .done (by simp)

theorem typeArguments_reads : Reads false false (g.typeArguments <|> pure []) :=
  .orPure (typeArguments_takes hg) rfl

theorem typeQuery_takes : Reads false true g.typeQuery := by
  refine .of fun _ => ?_
  refine .bind (keyword_takes _) fun _ => ?_
  refine .bind (t := true) ?_ fun _ => ?_
  · refine .orElse ?_ ?_
    · exact .of fun _ => .bind (importCall_takes hg) fun _ => .done (by simp)
    · exact .of fun _ => .bind word_takes fun _ => .done (by simp)
  · refine .bind qualifiedNames_reads fun _ => ?_
    exact .bind (typeArguments_reads hg) fun _ => .done (by simp)

theorem functionType_takes : Reads false true g.functionType := by
  refine .of fun _ => ?_
  refine .bind (taken_reads (t := true) ?_) fun _ => ?_
  · refine .seq (t := false) (keyword_takes _) ?_
    exact .lookAt (seesKeyword_looks _) fun _ => .look (check_looks _) fun _ => rfl
  · refine .bind (taken_reads (keyword_takes _)) fun _ => ?_
    refine .bind (.orPure (typeParameters_takes hg) rfl) fun _ => ?_
    refine .bind (hg.reads .parameters) fun _ => ?_
    exact .bind (sign_takes "=>") fun _ => .bind (hg.reads .type) fun _ => .done (by simp)

theorem tupleType_takes : Reads false true g.tupleType := by
  refine .of fun _ => ?_
  refine .bind (sign_takes "[") fun _ => ?_
  refine .bind (listed_reads (t := true) ?_) fun _ => ?_
  · have hname : Reads false true (do
        let _ ← word
        let _ ← Reader.taken (sign "?")
        sign ":") :=
      .of fun _ => .bind word_takes fun _ => .bind (taken_reads (sign_takes "?")) fun _ =>
        .tail (sign_takes ":") (by simp)
    refine .of fun _ => ?_
    refine .bind (taken_reads (sign_takes "...")) fun _ => ?_
    refine .bind (taken_reads hname) fun _ => ?_
    exact .bind (hg.reads .type) fun _ => .bind (taken_reads (sign_takes "?")) fun _ => .done (by simp)
  · exact .bind (sign_takes "]") fun _ => .done (by simp)

theorem indexKey_takes : Reads false true g.indexKey := by
  have hname : Reads false true (do let _ ← word; sign ":" <|> keyword "in") :=
    .of fun _ => .bind word_takes fun _ => .tail (.orElse (sign_takes _) (keyword_takes _)) (by simp)
  refine .of fun _ => ?_
  refine .bind (sign_takes "[") fun _ => ?_
  refine .bind (taken_reads hname) fun _ => ?_
  refine .bind (hg.reads .type) fun _ => ?_
  refine .bind (.orPure (.seq (keyword_takes _) (hg.reads .type)) rfl) fun _ => ?_
  exact .bind (sign_takes "]") fun _ => .done (by simp)

theorem objectType_takes : Reads false true g.objectType := by
  refine .of fun _ => ?_
  refine .bind (sign_takes _) fun _ => ?_
  refine .bind (repeated_reads (t := true) ?_) fun _ => ?_
  · refine .lookAt next?_looks fun next => ?_
    split
    · exact indexKey_takes hg
    · exact hg.reads .parameters
    · exact typeParameters_takes hg
    · exact .seq (token_takes 1) (hg.reads .type)
    · refine .ite ?_ ?_
      · exact .of fun _ => .bind (token_takes 1) fun _ => .done (by simp)
      · exact .of fun _ => .bind (propertyName_takes hg) fun _ => .done (by simp)
    · exact .of fun _ => .failure
  · exact .bind (sign_takes _) fun _ => .done (by simp)

theorem namedType_takes : Reads false true g.namedType := by
  refine .of fun _ => ?_
  refine .bind word_takes fun _ => ?_
  refine .bind qualifiedNames_reads fun _ => ?_
  refine .look newline_looks fun _ => ?_
  exact .ite (.done (by simp)) (.tail (typeArguments_reads hg) (by simp))

omit hg in
/-- The trees in the substitutions of a template. -/
theorem templateType_takes {inside : Reader (List Tree)} {t : Bool} (hinside : Reads false t inside) :
    Reads false true (do
      let t ← g.template inside
      return t.children.flatMap Tree.children) := by
  intro text c ts c' hc h
  obtain ⟨x, m, hx, h⟩ := bind_eq_some.mp h
  obtain ⟨rfl, rfl⟩ := pure_eq_some.mp h
  have hsince := template_since hinside hc hx
  rw [found_trees]
  refine { hsince with row := substitutions_row hsince.row (template_forms hx), spelled := ?_ }
  intro u hu
  obtain ⟨s, hs, hu⟩ := List.mem_flatMap.mp hu
  exact (hsince.spelled s hs).children u hu

theorem plainType_takes : Reads false true g.plainType := by
  refine .lookAt next?_looks fun next => ?_
  split
  · refine .orElse (functionType_takes hg) ?_
    refine .of fun _ => ?_
    refine .bind (sign_takes "(") fun _ => ?_
    exact .bind (hg.reads .type) fun _ => .bind (sign_takes ")") fun _ => .done (by simp)
  · exact functionType_takes hg
  · exact tupleType_takes hg
  · exact objectType_takes hg
  · exact templateType_takes (hg.reads .type)
  · refine .of fun _ => ?_
    exact .bind (token_takes 1) fun _ => .bind number_takes fun _ => .done (by simp)
  · refine .ite (.of fun _ => .bind string_takes fun _ => .done (by simp)) <|
      .ite (.of fun _ => .bind number_takes fun _ => .done (by simp)) <|
      .lookAt (seesKeyword_looks _) fun _ => .ite (typeQuery_takes hg) <|
      .lookAt (seesKeyword_looks _) fun _ => .ite ?_ <|
      .lookAt (seesKeyword_looks _) fun _ => .lookAt (seesKeyword_looks _) fun _ =>
      .ite (.orElse (functionType_takes hg) (namedType_takes hg)) (namedType_takes hg)
    refine .of fun _ => ?_
    refine .bind (importCall_takes hg) fun _ => ?_
    refine .bind qualifiedNames_reads fun _ => ?_
    exact .bind (typeArguments_reads hg) fun _ => .done (by simp)
  · exact .of fun _ => .failure

omit hg in
theorem typeOperators_reads : Reads false false g.typeOperators := by
  refine repeated_reads (t := true) (.of fun _ => .bind word_takes fun _ => .look (check_looks _)
    fun _ => .look rest_looks fun _ => ?_)
  refine .look (sees_looks _) fun _ => ?_
  refine .look (sees_looks _) fun _ => ?_
  refine .look (sees_looks _) fun _ => ?_
  refine .look (sees_looks _) fun _ => ?_
  exact .look (sees_looks _) fun _ => .look (check_looks _) fun _ => .done (by simp)

theorem suffixedType_takes : Reads false true g.suffixedType := by
  refine .of fun _ => ?_
  refine .bind (plainType_takes hg) fun _ => ?_
  refine .bind (repeated_reads (t := true) ?_) fun _ => ?_
  · refine .lookAt newline_looks fun _ => ?_
    refine .lookAt (check_looks _) fun _ => ?_
    refine .of fun _ => ?_
    refine .bind (sign_takes "[") fun _ => ?_
    exact .bind (.orPure (hg.reads .type) rfl) fun _ => .bind (sign_takes "]") fun _ => .done (by simp)
  · exact .done (by simp)

omit hg in
theorem alternatives_takes {operand : Reader (List Tree)} (hp : Reads false true operand) :
    Reads false true (g.alternatives operand) := by
  have hbar : Reads false true (do
      check !((← sees "||") || (← sees "&&"))
      sign "|" <|> sign "&") :=
    .lookAt (sees_looks _) fun _ => .lookAt (sees_looks _) fun _ => .lookAt (check_looks _) fun _ =>
      .orElse (sign_takes _) (sign_takes _)
  refine .of fun _ => ?_
  refine .bind (taken_reads hbar) fun _ => ?_
  exact .bind hp fun _ => .bind (repeated_reads (.seq hbar hp)) fun _ => .done (by simp)

theorem operandType_takes : Reads false true g.operandType := by
  refine .of fun _ => ?_
  refine .bind typeOperators_reads fun _ => ?_
  refine .bind (suffixedType_takes hg) fun _ => ?_
  refine .ite ?_ (.done (by simp))
  refine .bind (.orPure (t := true) (.seq (t := true) (keyword_takes _) ?_) rfl) fun _ => .done (by simp)
  refine alternatives_takes (.of fun _ => ?_)
  exact .bind typeOperators_reads fun _ => .tail (suffixedType_takes hg) (by simp)

theorem unionType_takes : Reads false true g.unionType := alternatives_takes (operandType_takes hg)

theorem predicate_takes : Reads false true g.predicate := by
  refine .of fun _ => ?_
  refine .bind (taken_reads (t := true) (.seq (t := false) (keyword_takes _) ?_)) fun _ => ?_
  · refine .lookAt newline_looks fun _ => ?_
    refine .lookAt rest_looks fun _ => ?_
    exact .lookAt (seesKeyword_looks _) fun _ => .look (check_looks _) fun _ => rfl
  · refine .bind word_takes fun _ => ?_
    refine .look (seesKeyword_looks _) fun _ => ?_
    refine .look newline_looks fun _ => ?_
    refine .ite ?_ ?_
    · exact .bind (keyword_takes _) fun _ => .tail (hg.reads .type) (by simp)
    · exact .look (check_looks _) fun _ => .done (by simp)

theorem type_takes : Reads false true g.type := by
  refine .orElse (predicate_takes hg) (.of fun _ => ?_)
  refine .bind (unionType_takes hg) fun _ => ?_
  refine .bind (.orPure (t := true) ?_ rfl) fun _ => .done (by simp)
  refine .lookAt newline_looks fun _ => ?_
  refine .lookAt (check_looks _) fun _ => ?_
  refine .of fun _ => ?_
  refine .bind (keyword_takes _) fun _ => ?_
  refine .bind (unionType_takes hg) fun _ => ?_
  refine .bind (sign_takes "?") fun _ => ?_
  refine .bind (hg.reads .type) fun _ => ?_
  exact .bind (sign_takes ":") fun _ => .bind (hg.reads .type) fun _ => .done (by simp)

end Grammar

end ClassSort.Script
