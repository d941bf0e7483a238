import ClassSort.Proofs.ClassList.Layout
import Mathlib.Data.List.Destutter

/-!
Dropping repeats, whatever the classes and the runs are. A class that is equal to the one in front of
it goes with the run between the two, and everything else stays in its place. So the text without
repeats is the text with these pieces cut out.
-/

namespace ClassSort.ClassList

/-- There are classes, with a run between any two of them and one at each end that has one. -/
structure InStep (tokens runs : List String) (head tail : Bool) : Prop where
  ne : tokens ≠ []
  count : runs.length = tokens.length - 1 + head.toNat + tail.toNat

def differing (tokens : List String) : List String :=
  ((tokens.zip (none :: tokens.map some)).filter fun p => p.2 ≠ some p.1).map (·.1)

structure Threading where
  lead : Option String
  first : String
  /-- Each further class behind the run in front of it. -/
  rest : List (String × String)
  trail : Option String

namespace Threading

def tokens (t : Threading) : List String := t.first :: t.rest.map (·.2)

def runs (t : Threading) : List String := t.lead.toList ++ t.rest.map (·.1) ++ t.trail.toList

def text (t : Threading) : String :=
  t.lead.getD "" ++ t.first ++ String.join (t.rest.map fun (run, token) => run ++ token) ++
    t.trail.getD ""

def withoutRepeats (t : Threading) : Threading :=
  { t with rest := ((t.rest.zip t.tokens).filter fun (piece, before) => piece.2 ≠ before).map (·.1) }

variable {t : Threading} {tokens runs : List String} {head tail : Bool}

theorem inStep (t : Threading) : InStep t.tokens t.runs t.lead.isSome t.trail.isSome where
  ne := by simp [Threading.tokens]
  count := by
    obtain ⟨lead, first, rest, trail⟩ := t
    simp only [Threading.tokens, Threading.runs, List.length_append, List.length_cons, List.length_map]
    cases lead <;> cases trail <;> simp [Nat.add_comm]

theorem exists_lead {n : Nat} (h : runs.length = n + head.toNat) :
    ∃ (lead : Option String) (inner : List String), runs = lead.toList ++ inner ∧ inner.length = n ∧
      lead.isSome = head := by
  cases head with
  | false => exact ⟨none, runs, rfl, h, rfl⟩
  | true =>
    obtain ⟨run, inner, rfl⟩ := List.exists_cons_of_length_eq_add_one h
    exact ⟨some run, inner, rfl, by simpa using h, rfl⟩

theorem exists_trail {n : Nat} (h : runs.length = n + tail.toNat) :
    ∃ (trail : Option String) (inner : List String), runs = inner ++ trail.toList ∧ inner.length = n ∧
      trail.isSome = tail := by
  have hback : runs.reverse.length = n + tail.toNat := by rw [List.length_reverse, h]
  obtain ⟨trail, inner, hsplit, hinner, htail⟩ := exists_lead hback
  refine ⟨trail, inner.reverse, ?_, by rw [List.length_reverse, hinner], htail⟩
  have hsingle : trail.toList.reverse = trail.toList := by cases trail <;> rfl
  rw [← List.reverse_reverse runs, hsplit, List.reverse_append, hsingle]

/-- Whatever is in step is threaded in one way. -/
theorem exists_of_inStep (h : InStep tokens runs head tail) : ∃ t : Threading,
    t.tokens = tokens ∧ t.runs = runs ∧ t.lead.isSome = head ∧ t.trail.isSome = tail := by
  obtain ⟨hne, hcount⟩ := h
  obtain ⟨first, others, rfl⟩ := List.exists_cons_of_ne_nil hne
  rw [List.length_cons, Nat.add_sub_cancel] at hcount
  obtain ⟨trail, front, rfl, hfront, htail⟩ := exists_trail hcount
  obtain ⟨lead, inner, rfl, hinner, hhead⟩ := exists_lead hfront
  refine ⟨⟨lead, first, inner.zip others, trail⟩, ?_, ?_, hhead, htail⟩
  · rw [Threading.tokens, List.map_snd_zip (by omega)]
  · rw [Threading.runs, List.map_fst_zip (by omega)]

theorem collapseRest_eq (first : String) (rest : List (String × String)) :
    Layout.collapseRest first rest =
      ((rest.zip (first :: rest.map (·.2))).filter fun (piece, before) => piece.2 ≠ before).map (·.1) := by
  induction rest generalizing first with
  | nil => rfl
  | cons piece rest ih =>
    obtain ⟨run, token⟩ := piece
    rw [Layout.collapseRest, List.map_cons, List.zip_cons_cons, ih]
    by_cases h : first = token
    · rw [if_pos h, List.filter_cons_of_neg (by simp [h])]
    · rw [if_neg h, List.filter_cons_of_pos (by simpa using Ne.symm h), List.map_cons]

theorem withoutRepeats_rest (t : Threading) :
    t.withoutRepeats.rest = Layout.collapseRest t.first t.rest :=
  (collapseRest_eq t.first t.rest).symm

theorem withoutRepeats_tokens (t : Threading) :
    t.withoutRepeats.tokens = distinctNeighbours t.tokens := by
  have hclasses := Layout.collapse_classes ⟨"", t.first, t.rest, ""⟩
  rw [Threading.tokens, withoutRepeats_rest]
  exact hclasses

/-- The runs that go are those in front of the repeats. -/
theorem dedupe_threaded (t : Threading) :
    dedupe t.tokens t.runs t.lead.isSome = (t.withoutRepeats.tokens, t.withoutRepeats.runs) := by
  have hruns : t.withoutRepeats.runs =
      t.lead.toList ++ (Layout.collapseRest t.first t.rest).map (·.1) ++ t.trail.toList := by
    rw [Threading.runs, withoutRepeats_rest]
    rfl
  rw [withoutRepeats_tokens, hruns, dedupe]
  exact Prod.ext rfl (Layout.erase_dropped t.lead t.first t.rest t.trail.toList)

theorem restText_eq (rest : List (String × String)) :
    Layout.restText rest = String.join (rest.map fun (run, token) => run ++ token) := by
  induction rest with
  | nil => rfl
  | cons piece rest ih => rw [Layout.restText, ih, List.map_cons, String.join_cons]

theorem assemble_threaded (t : Threading) :
    assemble t.tokens t.runs t.lead.isSome t.trail.isSome = t.text := by
  obtain ⟨lead, first, rest, trail⟩ := t
  rw [text, ← restText_eq]
  cases lead with
  | none => simpa [Threading.tokens, Threading.runs] using Layout.assemble_runs first rest trail
  | some lead => simpa [Threading.tokens, Threading.runs] using Layout.assemble_lead lead first rest trail

end Threading

variable {tokens runs : List String} {head tail : Bool}

theorem distinctNeighbours_cons (a : String) (others : List String) : distinctNeighbours (a :: others) =
    a :: ((others.zip (some a :: others.map some)).filter fun p => p.2 ≠ some p.1).map (·.1) := by
  induction others generalizing a with
  | nil => rfl
  | cons b others ih =>
    rw [distinctNeighbours, ih, List.map_cons (f := some), List.zip_cons_cons]
    by_cases h : a = b
    · rw [if_pos h, List.filter_cons_of_neg (by simp [h]), h]
    · rw [if_neg h, List.filter_cons_of_pos (by simpa using h), List.map_cons]

theorem distinctNeighbours_eq_differing (tokens : List String) :
    distinctNeighbours tokens = differing tokens := by
  cases tokens with
  | nil => rfl
  | cons a others =>
    rw [distinctNeighbours_cons, differing, List.map_cons (f := some), List.zip_cons_cons,
      List.filter_cons_of_pos (by simp), List.map_cons]

theorem distinctNeighbours_eq_destutter (ts : List String) :
    distinctNeighbours ts = ts.destutter (· ≠ ·) := by
  fun_induction distinctNeighbours ts with
  | case1 a rest ih =>
    rw [ih, List.destutter_cons_cons, if_neg (by simp), List.destutter_cons']
  | case2 a b rest h ih =>
    rw [ih, List.destutter_cons_cons, if_pos h, List.destutter_cons']
  | case3 ts h =>
    match ts with
    | [] => rfl
    | [a] => rfl
    | a :: b :: rest => exact absurd rfl (h a b rest)

theorem distinctNeighbours_isChain (tokens : List String) :
    (distinctNeighbours tokens).IsChain (· ≠ ·) := by
  rw [distinctNeighbours_eq_destutter]
  exact List.isChain_destutter _ _

theorem mem_distinctNeighbours {token : String} : token ∈ distinctNeighbours tokens ↔ token ∈ tokens := by
  fun_induction distinctNeighbours tokens with
  | case1 a rest ih => simp [ih]
  | case2 a b rest h ih => simp [ih]
  | case3 tokens h => rfl

/-- Dropping repeats cuts out each class that is equal to the one right in front of it, together with
the run between the two. What is left is in step, with the runs at the ends where they were, and each
class that stays has the run in front of it that it had. -/
theorem dedupe_cuts (h : InStep tokens runs head tail) :
    let left := dedupe tokens runs head
    InStep left.1 left.2 head tail ∧ left.1 = differing tokens ∧ left.1.IsChain (· ≠ ·) ∧
    (∀ token, token ∈ left.1 ↔ token ∈ tokens) ∧
    ∃ t : Threading, t.tokens = tokens ∧ t.runs = runs ∧ t.lead.isSome = head ∧ t.trail.isSome = tail ∧
      left = (t.withoutRepeats.tokens, t.withoutRepeats.runs) ∧
      assemble tokens runs head tail = t.text ∧ assemble left.1 left.2 head tail = t.withoutRepeats.text := by
  obtain ⟨t, rfl, rfl, rfl, rfl⟩ := Threading.exists_of_inStep h
  intro left
  have hleft : left = (t.withoutRepeats.tokens, t.withoutRepeats.runs) := t.dedupe_threaded
  have htokens : left.1 = distinctNeighbours t.tokens := rfl
  refine ⟨?_, ?_, ?_, ?_, t, rfl, rfl, rfl, rfl, hleft, t.assemble_threaded, ?_⟩
  · rw [hleft]
    exact t.withoutRepeats.inStep
  · rw [htokens, distinctNeighbours_eq_differing]
  · rw [htokens]
    exact distinctNeighbours_isChain _
  · rw [htokens]
    exact fun _ => mem_distinctNeighbours
  · rw [hleft]
    exact t.withoutRepeats.assemble_threaded

/-- Repeats in a row and at both ends, between runs of which one is empty. -/
theorem dedupe_cuts_crowded :
    let tokens := ["a", "a", "a", "b", "a", "a"]
    let runs := ["\n", " ", "", "\t", "  ", " ", "\r"]
    InStep tokens runs true true ∧ assemble tokens runs true true = "\na aa\tb  a a\r" ∧
      dedupe tokens runs true = (["a", "b", "a"], ["\n", "\t", "  ", "\r"]) ∧
      ["a", "b", "a"] = differing tokens ∧ InStep ["a", "b", "a"] ["\n", "\t", "  ", "\r"] true true ∧
      assemble ["a", "b", "a"] ["\n", "\t", "  ", "\r"] true true = "\na\tb  a\r" := by
  intro tokens runs
  have hstep : InStep tokens runs true true := ⟨by decide, rfl⟩
  have hdedupe : dedupe tokens runs true = (["a", "b", "a"], ["\n", "\t", "  ", "\r"]) := by decide
  obtain ⟨hleft, hdiffering, -⟩ := dedupe_cuts hstep
  rw [hdedupe] at hleft hdiffering
  exact ⟨hstep, by decide, hdedupe, hdiffering, hleft, by decide⟩

end ClassSort.ClassList
