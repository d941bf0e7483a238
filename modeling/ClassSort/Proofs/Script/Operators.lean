import ClassSort.Proofs.Script.Phrases
import ClassSort.Script.Operators

/-!
Operands that wait for their right side stand in a row with the operand behind them, and it stays
one when operators take their operands.
-/

namespace ClassSort.Script

open Script.Tree Reader
open Finds (found)

instance : Finds Operator := ⟨fun _ => []⟩

namespace Operator

/-- The operands from the left, the last one being the operand at hand. -/
def row (waiting : Waiting) (operand : Tree) : List Tree :=
  (waiting.map (·.1)).reverse ++ [operand]

theorem row_push (waiting : Waiting) (left right : Tree) (o : Operator) :
    row ((left, o) :: waiting) right = row waiting left ++ [right] := by
  simp [row]

theorem apply_row {a b : Nat} {left right : Tree} (o : Operator) (h : Row false a b [left, right]) :
    Row false a b [o.apply left right] := by
  obtain ⟨hstart, hleft, hplain, -, hrest⟩ := row_cons.mp h
  obtain ⟨hbehind, hright, hplain', hstop⟩ := row_single.mp hrest
  have hleft' := hleft.ordered
  have hright' := hright.ordered
  have hkids : Row false left.span.start right.span.stop [left, right] :=
    row_cons.mpr ⟨Nat.le_refl _, hleft, hplain, by omega,
      row_single.mpr ⟨hbehind, hright, hplain', Nat.le_refl _⟩⟩
  have hspan : left.span.start ≤ right.span.stop := by omega
  unfold apply
  split
  · exact row_single.mpr ⟨hstart, sound_node.mpr ⟨hspan, by simp, trivial, hkids⟩, .inr rfl, hstop⟩
  · exact row_single.mpr ⟨hstart, sound_node.mpr ⟨hspan, by simp, trivial, hkids⟩, .inr rfl, hstop⟩

/-- The operator nearest to the operand takes both its operands. -/
theorem row_apply {a b : Nat} {waiting : Waiting} {left operand : Tree} {o : Operator}
    (h : Row false a b (row ((left, o) :: waiting) operand)) :
    Row false a b (row waiting (o.apply left operand)) := by
  rw [row_push, row, List.append_assoc] at h
  exact h.replace fun _ _ => apply_row o

theorem settle_row {a b : Nat} {p : Operator → Bool} {waiting : Waiting} {operand : Tree}
    (h : Row false a b (row waiting operand)) :
    Row false a b (row (settle p waiting operand).1 (settle p waiting operand).2) := by
  fun_induction settle p waiting operand with
  | case1 left o waiting operand hp ih => exact ih (row_apply h)
  | case2 => exact h
  | case3 => exact h

theorem settleAll_row {a b : Nat} {waiting : Waiting} {operand : Tree}
    (h : Row false a b (row waiting operand)) : Row false a b [settleAll waiting operand] := by
  induction waiting generalizing operand with
  | nil => exact h
  | cons w waiting ih => exact ih (row_apply h)

/-- What follows the operands follows what they are put together to. -/
theorem settleAll_followed {a b : Nat} {waiting : Waiting} {operand : Tree} {ts : List Tree}
    (h : Row false a b (row waiting operand ++ ts)) :
    Row false a b (settleAll waiting operand :: ts) := by
  rw [row, List.append_assoc] at h
  obtain ⟨hrow, hts, hstop⟩ := h.split
  obtain ⟨hstart, hwhole, hplain, hbefore⟩ := row_single.mp (settleAll_row hrow)
  exact row_cons.mpr ⟨hstart, hwhole, hplain, Nat.le_trans hbefore hstop,
    hts.weaken hbefore (Nat.le_refl _)⟩

/-! What is put together is spelled as its parts are. -/

section

variable {text : List Char} {waiting : Waiting} {operand : Tree}

theorem apply_spelled {left right : Tree} (o : Operator) (h : ∀ t ∈ [left, right], t.Spelled text) :
    (o.apply left right).Spelled text := by
  unfold apply
  split
  · exact .node trivial h
  · exact .node trivial h

theorem row_apply_spelled {left : Tree} {o : Operator}
    (h : ∀ t ∈ row ((left, o) :: waiting) operand, t.Spelled text) :
    ∀ t ∈ row waiting (o.apply left operand), t.Spelled text := by
  rw [row_push, row, List.append_assoc] at h
  obtain ⟨hwaiting, hpair⟩ := List.forall_mem_append.mp h
  exact List.forall_mem_append.mpr ⟨hwaiting, List.forall_mem_singleton.mpr (apply_spelled o hpair)⟩

theorem settle_spelled {p : Operator → Bool} (h : ∀ t ∈ row waiting operand, t.Spelled text) :
    ∀ t ∈ row (settle p waiting operand).1 (settle p waiting operand).2, t.Spelled text := by
  fun_induction settle p waiting operand with
  | case1 left o waiting operand hp ih => exact ih (row_apply_spelled h)
  | case2 => exact h
  | case3 => exact h

theorem settleAll_spelled (h : ∀ t ∈ row waiting operand, t.Spelled text) :
    (settleAll waiting operand).Spelled text := by
  induction waiting generalizing operand with
  | nil => exact h operand (List.mem_singleton_self _)
  | cons w waiting ih => exact ih (row_apply_spelled h)

end

theorem read_takes : Reads false true Operator.read := by
  refine .of fun _ => ?_
  refine .look rest_looks fun cs => ?_
  split
  · refine .look (sees_looks _) fun _ => ?_
    refine .look (sees_looks _) fun _ => ?_
    refine .look (check_looks _) fun _ => ?_
    exact .bind (token_takes _) fun _ => .done (List.nil_sublist _)
  · dsimp only
    split
    · exact .bind (token_takes _) fun _ => .done (List.nil_sublist _)
    · exact .failure

end Operator

namespace Grammar

variable {g : Grammar} (hg : g.Takes)
include hg

theorem assertedType_takes : Reads false true g.assertedType := by
  refine .lookAt newline_looks fun _ => ?_
  refine .lookAt (check_looks _) fun _ => ?_
  exact .seq (.orElse (keyword_takes _) (keyword_takes _)) (hg.reads .type)

omit hg in
theorem assertedValue_takes : Reads false true g.assertedValue := by
  refine .lookAt newline_looks fun _ => ?_
  exact .lookAt (sees_looks _) fun _ => .lookAt (check_looks _) fun _ => sign_takes "!"

def Extends (step : Tree → Reader Tree) : Prop :=
  ∀ o e, Ensures (Since false o true [e]) (step e) fun t => Since false o true (found t)

theorem operations_ensures {suffixes : Tree → Reader Tree} (hs : Extends suffixes) (fuel : Nat)
    (waiting : Operator.Waiting) (operand : Tree) (o : Outset) :
    Ensures (Since false o true (Operator.row waiting operand))
      (g.operations suffixes fuel waiting operand) fun t => Since false o true (found t) := by
  induction fuel generalizing waiting operand with
  | zero => exact .failure
  | succ fuel ih =>
    have hwhole (h : ∀ t ∈ Operator.row waiting operand, t.Spelled o.text) :
        ∀ t ∈ [Operator.settleAll waiting operand], t.Spelled o.text :=
      List.forall_mem_singleton.mpr (Operator.settleAll_spelled h)
    refine .skip (attempt_reads Operator.read_takes) (by rintro (_ | _) <;> rfl) fun next => ?_
    split
    · next op =>
      dsimp only
      refine .regroup (fun _ => Operator.settle_row (p := (·.precedes op))) Operator.settle_spelled <|
        .bind (one_takes hg _) fun right => ?_
      exact .congr (Operator.row_push _ _ _ _).symm (ih _ _)
    · refine .bind (attempt_reads (assertedType_takes hg)) fun next => ?_
      rcases next with _ | types
      · refine .congr (List.append_nil _) <|
          .skip (taken_reads assertedValue_takes) (by simp) fun _ => .ite ?_ ?_
        · exact .regroup (fun _ => Operator.settleAll_row) hwhole <|
            .andThen (.nodeAt rfl (by simp)) fun _ => .andThen (hs _ _) fun _ => ih [] _
        · exact .regroup (fun _ => Operator.settleAll_row) hwhole (.done (by simp))
      · refine .congr (congrArg _ (found_trees types)) <|
          .regroup (fun _ => Operator.settleAll_followed) (fun h => ?_) <|
          .andThen (.nodeAt rfl (by simp)) fun _ => ih [] _
        obtain ⟨hrow, htypes⟩ := List.forall_mem_append.mp h
        exact List.forall_mem_cons.mpr ⟨Operator.settleAll_spelled hrow, htypes⟩

end Grammar

end ClassSort.Script
