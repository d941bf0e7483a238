import ClassSort.Proofs.Script.Templates
import ClassSort.Script.Bindings
import ClassSort.Script.Elements

/-!
The phrases that the grammar is built from, in a grammar whose goals find trees where they move.
Each reader is followed step by step.
-/

namespace ClassSort.Script

open Script.Tree Reader
open Finds (found)

variable {o : Outset}

/-- Every goal moves over a token and finds no declared variables, and where an assignment is asked
for there is a tree. -/
structure Grammar.Takes (g : Grammar) : Prop where
  reads : ∀ goal, Reads false true (g.parse goal)
  assignment : ∀ resultTypes, Answers (g.parse (.assignment resultTypes))

/-! Literals and names. -/

namespace Reader

theorem identifier_takes : Reads false true identifier :=
  .markAt fun _ => .andThen plainName_named fun _ => .nodeName (.inl rfl)

theorem string_eq_some {c c' : Cursor} {x : Tree} (h : string c = some (x, c')) : ∃ quote cs n,
    c.rest = quote :: cs ∧ (quote = '"' ∨ quote = '\'') ∧ quotedLength quote cs = some n ∧
      (c.ahead (n + 1)).settled = c' ∧ x = .node .string ⟨c.offset, c'.last⟩ [] := by
  obtain ⟨start, m, hmark, h⟩ := bind_eq_some.mp h
  obtain ⟨rfl, rfl⟩ := pure_eq_some.mp hmark
  obtain ⟨cs, m, hrest, h⟩ := bind_eq_some.mp h
  obtain ⟨hcs, rfl⟩ := pure_eq_some.mp hrest
  cases cs with
  | nil => cases h
  | cons quote cs =>
    obtain ⟨_, m, hcheck, h⟩ := bind_eq_some.mp h
    obtain ⟨hquote, rfl⟩ := check_eq_some.mp hcheck
    obtain ⟨n, m, hlift, h⟩ := bind_eq_some.mp h
    obtain ⟨hlength, rfl⟩ := lift_eq_some.mp hlift
    obtain ⟨_, m, htoken, h⟩ := bind_eq_some.mp h
    obtain rfl := modify_eq_some.mp htoken
    obtain ⟨rfl, rfl⟩ := node_eq_some.mp h
    exact ⟨quote, cs, n, hcs, by simpa using hquote, hlength, rfl, rfl⟩

theorem string_takes : Reads false true string := by
  intro text c x c' hc h
  obtain ⟨quote, cs, n, hcs, hquote, hlength, rfl, rfl⟩ := string_eq_some h
  have hsince : Since false _ true [] _ := token_takes (n + 1) text c () _ hc (modify_eq_some.mpr rfl)
  refine hsince.node (List.nil_sublist _) (by simp) (List.forall_mem_nil _) ?_ (by simp) (.inr rfl)
  obtain ⟨body, hbody⟩ := take_quotedLength hlength
  have hslice := hc.slice_ahead (n + 1)
  rw [hcs, List.take_succ_cons, hbody] at hslice
  exact ⟨quote, hquote, body, hslice⟩

theorem number_takes : Reads false true number := by
  refine .mark fun _ => ?_
  refine .look rest_looks fun cs => ?_
  dsimp only
  split
  · exact .look (check_looks _) fun _ => .bind (token_takes _) fun _ => .node rfl (by simp)
  · exact .look (check_looks _) fun _ => .bind (token_takes _) fun _ => .node rfl (by simp)
  · exact .failure

theorem pattern_takes : Reads false true pattern := by
  refine .mark fun _ => ?_
  refine .look rest_looks fun cs => ?_
  split
  · exact .look (lift_looks _) fun _ => .bind (token_takes _) fun _ => .node rfl (by simp)
  · exact .failure

theorem privateName_takes : Reads false true privateName := by
  refine .mark fun _ => ?_
  refine .look rest_looks fun cs => ?_
  split
  · exact .look (check_looks _) fun _ => .bind (token_takes _) fun _ => .node rfl (by simp)
  · exact .failure

theorem string_reaching : Ensures (At o) string (Reaching o) := by
  intro c x c' hc h
  obtain ⟨_, _, _, -, -, -, rfl, rfl⟩ := string_eq_some h
  exact congrArg (Span.mk · _) hc.start.symm

theorem number_reaching : Ensures (At o) number (Reaching o) :=
  .mark <| .step fun cs => by
    dsimp only
    split
    · exact .step fun _ => .step fun _ => node_reaching
    · exact .step fun _ => .step fun _ => node_reaching
    · exact .failure

theorem privateName_reaching : Ensures (At o) privateName (Reaching o) :=
  .mark <| .step fun cs => by
    split
    · exact .step fun _ => .step fun _ => node_reaching
    · exact .failure

end Reader

namespace Grammar

section

variable {g : Grammar} {α : Type} [Finds α] {p : Reader α} {declares t : Bool}

theorem repeated_reads (hp : Reads declares t p) : Reads declares false (g.repeated p) :=
  many_reads hp g.fuel

theorem listed_reads (hp : Reads declares t p) : Reads declares false (g.listed p) :=
  .of fun _ => .bind (attempt_reads hp) fun first => by
    split
    · exact .done (by simp)
    · exact .bind (repeated_reads (.seq (sign_takes ",") hp)) fun _ =>
        .bind (taken_reads (sign_takes ",")) fun _ => .done (by simp)

theorem typed_reads {p : Reader (List Tree)} (hp : Reads false t p) :
    Reads false false (g.typed p) :=
  .ite (.orPure hp rfl) (.pure rfl)

end

variable {g : Grammar} (hg : g.Takes)
include hg

theorem one_takes (goal : Goal) : Reads false true (g.one goal) :=
  .of fun _ => .bind (hg.reads goal) fun ts => by
    split
    · exact .done (by simp)
    · exact .failure

theorem assignment_takes : Reads false true g.assignment := one_takes hg _

theorem annotation_reads : Reads false false g.annotation :=
  typed_reads (.seq (sign_takes ":") (hg.reads .type))

theorem typeArguments_takes : Reads false true g.typeArguments := by
  refine .of fun _ => ?_
  refine .bind (sign_takes "<") fun _ => ?_
  exact .bind (listed_reads (hg.reads .type)) fun _ => .bind (sign_takes ">") fun _ => .done (by simp)

theorem typeParameters_takes : Reads false true g.typeParameters := by
  refine .of fun _ => ?_
  refine .bind (sign_takes "<") fun _ => ?_
  refine .bind (listed_reads (t := true) ?_) fun _ => ?_
  · refine .of fun _ => ?_
    refine .bind (repeated_reads (t := true) ?_) fun _ => ?_
    · refine .of fun _ => ?_
      refine .look (seesKeyword_looks _) fun _ => ?_
      refine .look (seesKeyword_looks _) fun _ => ?_
      refine .look (seesKeyword_looks _) fun _ => ?_
      refine .look (check_looks _) fun _ => ?_
      refine .bind word_takes fun _ => ?_
      exact .tail (.lookAt rest_looks fun _ => .look (check_looks _) fun _ => rfl) rfl
    · refine .bind plainName_takes fun _ => ?_
      refine .bind (.orPure (.seq (keyword_takes "extends") (hg.reads .type)) rfl) fun _ => ?_
      exact .bind (.orPure (.seq (sign_takes "=") (hg.reads .type)) rfl) fun _ => .done (by simp)
  · exact .bind (sign_takes ">") fun _ => .done (by simp)

theorem listItem_takes : Reads false true g.listItem := by
  refine .mark fun _ => ?_
  refine .look (sees_looks _) fun _ => ?_
  refine .ite ?_ (.tail (assignment_takes hg) rfl)
  exact .bind (token_takes _) fun _ => .bind (assignment_takes hg) fun _ => .node rfl (by simp)

theorem arguments_takes : Reads false true g.arguments := by
  refine .mark fun _ => ?_
  refine .bind (sign_takes "(") fun _ => ?_
  refine .bind (listed_reads (listItem_takes hg)) fun _ => ?_
  exact .bind (sign_takes ")") fun _ => .node rfl (by simp)

omit hg in
theorem arguments_form {c c' : Cursor} {x : Tree} (h : g.arguments c = some (x, c')) :
    x.form = .arguments := by
  obtain ⟨_, _, _, h⟩ := bind_eq_some.mp h
  obtain ⟨_, _, _, h⟩ := bind_eq_some.mp h
  obtain ⟨_, _, _, h⟩ := bind_eq_some.mp h
  obtain ⟨_, _, _, h⟩ := bind_eq_some.mp h
  obtain ⟨rfl, -⟩ := node_eq_some.mp h
  rfl

theorem array_takes : Reads false true g.array := by
  refine .mark fun _ => ?_
  refine .bind (sign_takes "[") fun _ => ?_
  refine .bind (repeated_reads (t := true) ?_) fun _ => ?_
  · refine .orElse (.of fun _ => .bind (sign_takes ",") fun _ => .done (by simp)) ?_
    refine .of fun _ => ?_
    refine .bind (listItem_takes hg) fun _ => ?_
    refine .look (sees_looks _) fun _ => ?_
    exact .look (sees_looks _) fun _ => .look (check_looks _) fun _ => .done (by simp)
  · exact .bind (sign_takes "]") fun _ => .node rfl (by simp)

/-! Names of entries, statements in braces and decorators. -/

theorem propertyName_takes : Reads false true g.propertyName := by
  refine .markAt fun _ => ?_
  refine .look next?_looks fun next => ?_
  split
  · refine .left (.bind (token_takes 1) fun _ => ?_)
    refine .bind (assignment_takes hg) fun _ => ?_
    exact .bind (sign_takes "]") fun _ => .node rfl (by simp)
  · exact .left (.tail privateName_takes rfl)
  · refine .ite (.left (.tail string_takes rfl)) ?_
    refine .ite (.left (.tail number_takes rfl)) ?_
    exact .andThen word_named fun _ => .nodeName (.inr rfl)
  · exact .failure

omit hg in
theorem propertyName_reaching : Ensures (At o) g.propertyName (Reaching o) := by
  refine .mark (.look next?_looks fun next => ?_)
  split
  · exact .step fun _ => .step fun _ => .step fun _ => node_reaching
  · exact privateName_reaching
  · refine .ite string_reaching (.ite number_reaching ?_)
    exact .step fun _ => node_reaching
  · exact .failure

theorem block_takes : Reads false true g.block := by
  refine .of fun _ => ?_
  refine .bind (sign_takes _) fun _ => ?_
  refine .bind (repeated_reads (hg.reads .statement)) fun _ => ?_
  exact .bind (sign_takes _) fun _ => .done (by simp)

omit hg in
/-- Names behind points are put around the name in front of them one after the other. -/
theorem members_row {a b : Nat} {first : Tree} {names : List Tree}
    (h : Row false a b (first :: names)) :
    Row false a b [names.foldl
      (fun object name => .node .member ⟨a, name.span.stop⟩ [object, name]) first] := by
  induction names generalizing first with
  | nil => exact h
  | cons name names ih =>
    obtain ⟨hstart, hfirst, hplain, -, hrest⟩ := row_cons.mp h
    obtain ⟨hbehind, hname, hplain', hstop, hnames⟩ := row_cons.mp hrest
    have hfirst' := hfirst.ordered
    have hname' := hname.ordered
    refine ih (row_cons.mpr ⟨Nat.le_refl _, sound_node.mpr ?_, .inr rfl, hstop, hnames⟩)
    refine ⟨?_, by simp, trivial, ?_⟩
    · simp only
      omega
    · exact row_cons.mpr ⟨hstart, hfirst, hplain, by simp only [Form.inside]; omega,
        row_single.mpr ⟨hbehind, hname, hplain', Nat.le_refl _⟩⟩

omit hg in
theorem members_spelled {text : List Char} {a : Nat} {first : Tree} {names : List Tree}
    (h : ∀ t ∈ first :: names, t.Spelled text) : (names.foldl
      (fun object name => .node .member ⟨a, name.span.stop⟩ [object, name]) first).Spelled text := by
  induction names generalizing first with
  | nil => exact h first List.mem_cons_self
  | cons name names ih =>
    obtain ⟨hfirst, hname, hnames⟩ := by simpa only [List.forall_mem_cons] using h
    refine ih (List.forall_mem_cons.mpr ⟨.node trivial ?_, hnames⟩)
    exact List.forall_mem_cons.mpr ⟨hfirst, List.forall_mem_singleton.mpr hname⟩

theorem decorator_takes : Reads false true g.decorator := by
  refine .of fun _ => ?_
  refine .bind (sign_takes "@") fun _ => ?_
  refine .look (sees_looks _) fun _ => ?_
  refine .ite ?_ ?_
  · refine .bind (token_takes 1) fun _ => ?_
    exact .bind (one_takes hg _) fun _ => .bind (sign_takes ")") fun _ => .done (by simp)
  · refine .tail (t := true) (.mark fun o => .bind identifier_takes fun first =>
      .bind (repeated_reads (t := true) ?_) fun names => ?_) rfl
    · exact .seq (sign_takes ".") (.markAt fun _ => .andThen word_named fun _ => .nodeName (.inr rfl))
    · refine .congr (show _ = first :: names by simp) ?_
      refine .regroup (fun _ => members_row) (fun h => List.forall_mem_singleton.mpr (members_spelled h)) ?_
      refine .bind (typed_reads (typeArguments_takes hg)) fun types => ?_
      refine .look (sees_looks _) fun _ => ?_
      refine .ite ?_ (.done (by simp))
      refine .bindFor (arguments_takes hg) (fun _ _ _ => arguments_form) fun given hgiven => ?_
      exact .nodeCall (by simp) (by simp [List.getLast?_cons, hgiven])

/-! Names and parameters. -/

theorem fallback_reads : Reads false false g.fallback :=
  .orPure (.lookAt (sees_looks _) fun _ => .lookAt (sees_looks _) fun _ => .lookAt (check_looks _)
    fun _ => .seq (sign_takes _) (hg.reads _)) rfl

theorem objectPattern_takes : Reads false true g.objectPattern := by
  refine .mark fun _ => ?_
  refine .bind (sign_takes _) fun _ => ?_
  refine .bind (listed_reads (t := true) ?_) fun _ => ?_
  · refine .lookAt (sees_looks _) fun _ => ?_
    refine .ite (.seq (token_takes 3) (hg.reads _)) ?_
    refine .of fun _ => ?_
    refine .bind (propertyName_takes hg) fun _ => ?_
    refine .bind (.orPure (.seq (sign_takes ":") (hg.reads _)) rfl) fun _ => ?_
    exact .bind (fallback_reads hg) fun _ => .done (by simp)
  · exact .bind (sign_takes _) fun _ => .node rfl (by simp)

theorem arrayPattern_takes : Reads false true g.arrayPattern := by
  refine .mark fun _ => ?_
  refine .bind (sign_takes _) fun _ => ?_
  refine .bind (repeated_reads (t := true) ?_) fun _ => ?_
  · refine .orElse (.of fun _ => .bind (sign_takes ",") fun _ => .done (by simp)) ?_
    refine .of fun _ => ?_
    refine .bind (taken_reads (sign_takes _)) fun _ => ?_
    refine .bind (hg.reads _) fun _ => ?_
    refine .bind (fallback_reads hg) fun _ => ?_
    refine .look (sees_looks _) fun _ => ?_
    exact .look (sees_looks _) fun _ => .look (check_looks _) fun _ => .done (by simp)
  · exact .bind (sign_takes _) fun _ => .node rfl (by simp)

theorem binding_takes : Reads false true g.binding := by
  refine .lookAt next?_looks fun next => ?_
  split
  · exact objectPattern_takes hg
  · exact arrayPattern_takes hg
  · exact identifier_takes

theorem parameter_takes : Reads false true g.parameter := by
  refine .of fun _ => .bind (repeated_reads (decorator_takes hg)) fun _ =>
    .optionally (repeated_reads (t := true) ?_) (by simp) <|
    .skip (taken_reads (sign_takes _)) (by simp) fun _ =>
    .bind (t := true) (.ite (.orElse (.of fun _ => .bind (keyword_takes "this") fun _ =>
      .done (by simp)) (hg.reads _)) (hg.reads _)) fun _ =>
    .optionally (taken_reads (sign_takes _)) (by simp) <|
    .bind (annotation_reads hg) fun _ => .bind (fallback_reads hg) fun _ => .done (by simp)
  refine .of fun _ => ?_
  refine .bind word_takes fun _ => ?_
  refine .look (check_looks _) fun _ => ?_
  refine .tail (t := false) (.lookAt (sees_looks _) fun _ => ?_) rfl
  refine .lookAt (sees_looks _) fun _ => ?_
  exact .lookAt rest_looks fun _ => .look (check_looks _) fun _ => rfl

theorem parameters_takes : Reads false true g.parameters := by
  refine .of fun _ => ?_
  refine .bind (sign_takes "(") fun _ => ?_
  refine .bind (listed_reads (parameter_takes hg)) fun _ => ?_
  exact .bind (sign_takes ")") fun _ => .done (by simp)

theorem signature_takes : Reads false true g.signature := by
  refine .of fun _ => ?_
  refine .bind (typed_reads (typeParameters_takes hg)) fun _ => ?_
  exact .bind (hg.reads .parameters) fun _ => .bind (annotation_reads hg) fun _ => .done (by simp)

/-! Elements. -/

omit hg in
theorem tagName_takes : Reads false true tagName :=
  .lookAt rest_looks fun _ => .lookAt (check_looks _) fun _ => token_takes _

omit hg in
theorem attributeText_takes : Reads false true attributeText := by
  refine .of fun _ => ?_
  refine .look rest_looks fun cs => ?_
  split
  · refine .look (check_looks _) fun _ => ?_
    exact .look (check_looks _) fun _ => .tail (token_takes _) rfl
  · exact .failure

theorem embedded_reads : Reads false false g.embedded := by
  refine .lookAt (sees_looks _) fun _ => ?_
  refine .ite (.pure rfl) ?_
  refine .forget (t := true) (.mark fun _ => .look (sees_looks _) fun _ => .ite ?_ (.tail (hg.reads _) rfl))
  refine .bind (token_takes 3) fun _ => ?_
  exact .bind (hg.reads _) fun _ => .andThen (.node rfl (by simp)) fun _ => .done (by simp)

theorem tagAttribute_takes : Reads false true g.tagAttribute := by
  have hembedded : Reads false true (do token 1; let e ← g.embedded; sign "\x7d"; return e) :=
    .of fun _ => .bind (token_takes 1) fun _ => .bind (embedded_reads hg) fun _ =>
      .bind (sign_takes _) fun _ => .done (by simp)
  refine .lookAt (sees_looks _) fun _ => ?_
  refine .ite hembedded ?_
  refine .seq (t := false) tagName_takes ?_
  refine .of fun _ => ?_
  refine .bind (taken_reads (sign_takes "=")) fun _ => ?_
  refine .ite ?_ (.done (by simp))
  refine .look next?_looks fun next => ?_
  split
  · exact .tail hembedded.forget (by simp)
  · exact .bind (hg.reads _) fun _ => .bind settle_reads fun _ => .forget (.done (by simp))
  · exact .bind attributeText_takes fun _ => .forget (.done (by simp))

theorem content_reads : Reads false false g.content := by
  refine .of fun _ => ?_
  refine .bind (repeated_reads (t := true) ?_) fun _ => ?_
  · refine .lookAt rest_looks fun cs => ?_
    split
    · refine .of fun _ => ?_
      refine .bind (token_takes 1) fun _ => ?_
      exact .bind (embedded_reads hg) fun _ => .bind (bareSign_takes _) fun _ => .done (by simp)
    · exact .lookAt (sees_looks _) fun _ => .lookAt (check_looks _) fun _ => hg.reads _
    · refine .of fun _ => ?_
      exact .look (check_looks _) fun _ => .bind (bare_takes _) fun _ => .done (by simp)
  · exact .done (by simp)

omit hg in
theorem closingTag_takes : Reads false true closingTag := by
  refine .seq (t := true) (sign_takes "<") ?_
  refine .seq (t := true) (sign_takes "/") ?_
  exact .of fun _ => .bind (taken_reads tagName_takes) fun _ => .tail (bareSign_takes ">") rfl

theorem element_takes : Reads false true g.element := by
  refine .mark fun _ => ?_
  refine .bind (sign_takes "<") fun _ => ?_
  refine .look (sees_looks _) fun _ => ?_
  refine .ite ?_ ?_
  · refine .bind (bare_takes 1) fun _ => ?_
    exact .bind (content_reads hg) fun _ => .bind closingTag_takes fun _ => .node rfl (by simp)
  · refine .bind tagName_takes fun _ => ?_
    refine .bind (typed_reads (typeArguments_takes hg)) fun _ => ?_
    refine .bind (repeated_reads (tagAttribute_takes hg)) fun _ => ?_
    refine .bind (taken_reads (sign_takes "/")) fun _ => ?_
    refine .ite ?_ ?_
    · exact .bind (bareSign_takes ">") fun _ => .node rfl (by simp)
    · refine .bind (bareSign_takes ">") fun _ => ?_
      refine .bind (content_reads hg) fun _ => ?_
      exact .bind closingTag_takes fun _ => .node rfl (by simp)

end Grammar

end ClassSort.Script
