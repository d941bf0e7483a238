import ClassSort.Proofs.ClassList.Layout
import ClassSort.Proofs.Source.Spans
import ClassSort.Proofs.Source.Texts
import ClassSort.Rule.Grouping
import ClassSort.Rule.Sorting

/-!
Offsets are machine words. The rules are repeated here with arithmetic that gives up where a result
is no word, and never do: whatever ranges a forest has, a sum or a difference is only taken behind
a test that keeps it among the words.
-/

namespace ClassSort

/-- The words are the numbers below. -/
def wordLimit : Nat := 0x10000000000000000

/-- Both ends are words. -/
def Span.Addressable (s : Span) : Prop := s.start < wordLimit ∧ s.stop < wordLimit

namespace Checked

def add? (a b : Nat) : Option Nat := if a + b < wordLimit then some (a + b) else none

def sub? (a b : Nat) : Option Nat := if b ≤ a then some (a - b) else none

def inner? (s : Span) : Option Span := do
  some ⟨← add? s.start 1, ← sub? s.stop 1⟩

/-- Candidates of a row of places, as long as none of them gives up. -/
def gather? {α : Type} (f : α → Option (List Candidate)) (xs : List α) : Option (List Candidate) :=
  (xs.mapM f).map List.flatten

section Collecting

variable (source : String) (options : SortOptions)

def ofLiteral? (span : Span) : Option (List Candidate) :=
  if 2 ≤ span.size then (inner? span).map (Candidate.ofText source) else some []

/-- The text is cut at the places found; where one is no place of the text nothing comes back. -/
def splitTemplate? (text raw : String) : Option (Option (String × String × String)) :=
  if raw.isEmpty then some none
  else
    match splitAround raw.toList text.toList with
    | none => some none
    | some (before, _) => do
      let start := byteLength before
      let stop ← add? start (byteLength raw.toList)
      some (some (← slice? text ⟨0, start⟩, ← slice? text ⟨start, stop⟩,
        ← slice? text ⟨stop, byteLength text.toList⟩))

def ofChunk? (chunk : Chunk) : Option (List Candidate) :=
  match slice? source chunk.span with
  | none => some []
  | some text => (splitTemplate? text chunk.raw).map fun
    | some (before, body, after) => Candidate.keep ⟨chunk.span, before, body, after⟩
    | none => []

def ignores? : Node → Option Bool
  | .literal span =>
    if 2 ≤ span.size then
      (inner? span).map fun inner => (slice? source inner).any options.ignoredKeys.contains
    else some false
  | key => some (Candidate.ignores source options key)

mutual

def visit? : Node → Option (List Candidate)
  | .array _ elements => visitAll? elements
  | .binary _ left right => do some ((← visit? left) ++ (← visit? right))
  | .logical _ _ right => visit? right
  | .conditional _ _ consequent alternate => do some ((← visit? consequent) ++ (← visit? alternate))
  | .literal span => ofLiteral? source span
  | .object _ properties => visitProperties? properties
  | .template _ chunks expressions => do
    some ((← visitAll? expressions) ++ (← gather? (ofChunk? source) chunks))
  | .declarator _ (some name) (some init) =>
    if options.declarations.selects name then visit? init else some []
  | _ => some []

def visitAll? : List Node → Option (List Candidate)
  | [] => some []
  | node :: rest => do some ((← visit? node) ++ (← visitAll? rest))

def visitProperties? : List Property → Option (List Candidate)
  | [] => some []
  | .entry key value :: rest => do
    let found ← if ← ignores? source options key then some [] else
      do some ((← visit? key) ++ (← visit? value))
    some (found ++ (← visitProperties? rest))
  | .spread _ :: rest => visitProperties? rest

end

def ofCall? (callee : Callee) (arguments : List Node) : Option (List Candidate) :=
  if callee.name?.any options.callees.contains then visitAll? source options arguments else some []

def ofPart? : AttributePart → Option (List Candidate)
  | .text span => some (Candidate.ofText source span)
  | .mustache _ (.call _ callee arguments) => ofCall? source options callee arguments
  | .mustache _ expression => visit? source options expression

def ofRoot? : Node → Option (List Candidate)
  | .call _ callee arguments => ofCall? source options callee arguments
  | .tagged _ tag template =>
    if tag.name?.any options.tags.contains then visit? source options template else some []
  | .declarator span name init => visit? source options (.declarator span name init)
  | .classAttribute _ _ parts => gather? (ofPart? source options) parts
  | _ => some []

def collect? (roots : List Node) : Option (List Candidate) := gather? (ofRoot? source options) roots

end Collecting

def dedupe? (tokens runs : List String) (head : Bool) : Option (List String × List String) := do
  let dropped ← (ClassList.repeats 0 tokens).mapM fun i => if head then some i else sub? i 1
  some (ClassList.distinctNeighbours tokens, dropped.foldr (fun i left => left.eraseIdx i) runs)

def rebuild? (list : ClassList) (sorted : List String) (removeDuplicates : Bool) : Option String := do
  let (tokens, runs) ←
    if removeDuplicates then dedupe? sorted list.runs list.head else some (sorted, list.runs)
  some (ClassList.assemble tokens runs list.head list.tail)

def violation? (orders : OrderMap) (removeDuplicates : Bool) (c : Candidate) :
    Option (Option Violation) := do
  let list := ClassList.parse c.body
  let body ← rebuild? list (sortTokens list.tokens orders) removeDuplicates
  some (if body = c.body then none
    else some ⟨Sorting.rule, c.range, c.before ++ body ++ c.after, Sorting.message⟩)

def violations? (orders : OrderMap) (removeDuplicates : Bool) (candidates : List Candidate) :
    Option (List Violation) := do
  let found ← candidates.mapM (violation? orders removeDuplicates)
  some (Sorting.dropSameRange (sortViolations (found.filterMap id)))

def sorting? {σ κ : Type} (o : Ranking σ κ) (source : String) (roots : List Node)
    (options : SortOptions) (r : Resolver κ) (s : σ) :
    Option (Except OrderError (List Violation) × Resolver κ × σ) := do
  let candidates ← collect? source options roots
  if candidates.isEmpty then some (.ok [], r, s)
  else
    let tokens := candidates.flatMap fun c => (ClassList.parse c.body).tokens
    match r.resolve o tokens s with
    | (.error e, r, s) => some (.error e, r, s)
    | (.ok orders, r, s) => do
      some (.ok (← violations? orders options.removeDuplicates candidates), r, s)

/-- The grouping rule. -/
def grouping? (source : String) : Node → Option (Option Violation)
  | .classAttribute span true parts =>
    if parts.length < 2 || span.size < 2 then some none
    else do
      let inner ← inner? span
      some do
        let current ← slice? source inner
        let result := Grouping.grouped (← Grouping.partTexts source parts)
        if result = current then none else some ⟨Grouping.rule, inner, result, Grouping.message⟩
  | _ => some none

theorem add?_eq {a b : Nat} (h : a + b < wordLimit) : add? a b = some (a + b) := if_pos h

theorem sub?_eq {a b : Nat} (h : b ≤ a) : sub? a b = some (a - b) := if_pos h

/-- A range that can be stripped of two bytes holds them. -/
theorem inner?_eq {s : Span} (hs : s.Addressable) (hsize : 2 ≤ s.size) : inner? s = some s.inner := by
  obtain ⟨-, hstop⟩ := hs
  unfold Span.size at hsize
  rw [inner?, add?_eq (by omega), sub?_eq (by omega)]
  rfl

theorem mapM_eq {α β : Type} {f : α → Option β} {g : α → β} {xs : List α}
    (h : ∀ x ∈ xs, f x = some (g x)) : xs.mapM f = some (xs.map g) := by
  induction xs with
  | nil => rfl
  | cons x xs ih =>
    obtain ⟨hx, hxs⟩ := List.forall_mem_cons.mp h
    rw [List.mapM_cons, hx, ih hxs]
    rfl

theorem gather?_eq {α : Type} {f : α → Option (List Candidate)} {g : α → List Candidate} {xs : List α}
    (h : ∀ x ∈ xs, f x = some (g x)) : gather? f xs = some (xs.flatMap g) := by
  rw [gather?, List.flatMap_def, mapM_eq h]
  rfl

section Collecting

variable {source : String} {options : SortOptions}

theorem ofLiteral?_eq {span : Span} (hspan : span.Addressable) :
    ofLiteral? source span = some (Candidate.ofLiteral source span) := by
  unfold ofLiteral? Candidate.ofLiteral
  split
  · next hsize =>
    rw [inner?_eq hspan hsize]
    rfl
  · rfl

/-- What is found in a text ends within it. -/
theorem splitTemplate?_eq {text raw : String} (htext : byteLength text.toList < wordLimit) :
    splitTemplate? text raw = some (ClassSort.splitTemplate? text raw) := by
  unfold splitTemplate? ClassSort.splitTemplate?
  split
  · rfl
  · cases hfound : splitAround raw.toList text.toList with
    | none => rfl
    | some found =>
      obtain ⟨before, after⟩ := found
      have hsplit := (splitAround_firstCut hfound).split
      have hlength : byteLength text.toList =
          byteLength before + byteLength raw.toList + byteLength after := by
        rw [hsplit, byteLength_append, byteLength_append]
      have hbefore : slice? text ⟨0, byteLength before⟩ = some (String.ofList before) := by
        rw [slice?, sliceChars?_eq_some.mpr ⟨[], raw.toList ++ after, by simpa using hsplit, rfl,
          Nat.zero_add _⟩]
        rfl
      have hraw : slice? text ⟨byteLength before, byteLength before + byteLength raw.toList⟩ =
          some raw := by
        rw [slice?, sliceChars?_eq_some.mpr ⟨before, after, hsplit, rfl, rfl⟩, Option.map_some,
          String.ofList_toList]
      have hafter : slice? text ⟨byteLength before + byteLength raw.toList, byteLength text.toList⟩ =
          some (String.ofList after) := by
        rw [slice?, sliceChars?_eq_some.mpr ⟨before ++ raw.toList, [], by simpa using hsplit,
          byteLength_append .., hlength.symm⟩]
        rfl
      dsimp only
      rw [add?_eq (by omega), hbefore, Option.bind_eq_bind, Option.bind_some, hraw, hafter]
      rfl

theorem slice_size {s : Span} {text : String} (h : slice? source s = some text) :
    byteLength text.toList ≤ byteLength source.toList := by
  obtain ⟨inside, hslice, rfl⟩ := Option.map_eq_some_iff.mp h
  obtain ⟨before, after, hsplit, -, -⟩ := sliceChars?_eq_some.mp hslice
  rw [hsplit, String.toList_ofList, byteLength_append, byteLength_append]
  omega

/-- A chunk is searched for in a piece of the source. -/
theorem ofChunk?_eq (hsource : byteLength source.toList < wordLimit) (chunk : Chunk) :
    ofChunk? source chunk = some (Candidate.ofChunk source chunk) := by
  unfold ofChunk? Candidate.ofChunk
  cases hslice : slice? source chunk.span with
  | none => rfl
  | some text =>
    have htext : byteLength text.toList < wordLimit := Nat.lt_of_le_of_lt (slice_size hslice) hsource
    cases hsplit : ClassSort.splitTemplate? text chunk.raw with
    | none => simp [splitTemplate?_eq htext, hsplit]
    | some parts => simp [splitTemplate?_eq htext, hsplit]

theorem ignores?_eq {key : Node} (hkey : key.Spans Span.Addressable) :
    ignores? source options key = some (Candidate.ignores source options key) := by
  unfold ignores?
  split
  · next span =>
    rw [Node.Spans] at hkey
    rw [Candidate.ignores]
    split
    · next hsize =>
      rw [inner?_eq hkey hsize]
      simp [hsize]
    · next hsize => simp [hsize]
  · rfl

mutual

/-- No node makes a visit give up. -/
theorem visit?_eq (hsource : byteLength source.toList < wordLimit) :
    ∀ n : Node, n.Spans Span.Addressable →
      visit? source options n = some (Candidate.visit source options n)
  | .array _ elements, h => by
    rw [Node.Spans] at h
    rw [visit?, Candidate.visit, visitAll?_eq hsource elements h.2]
  | .binary _ left right, h => by
    rw [Node.Spans] at h
    rw [visit?, Candidate.visit, visit?_eq hsource left h.2.1, visit?_eq hsource right h.2.2]
    rfl
  | .logical _ _ right, h => by
    rw [Node.Spans] at h
    rw [visit?, Candidate.visit, visit?_eq hsource right h.2.2]
  | .conditional _ _ consequent alternate, h => by
    rw [Node.Spans] at h
    rw [visit?, Candidate.visit, visit?_eq hsource consequent h.2.2.1, visit?_eq hsource alternate h.2.2.2]
    rfl
  | .literal span, h => by
    rw [Node.Spans] at h
    rw [visit?, Candidate.visit, ofLiteral?_eq h]
  | .object _ properties, h => by
    rw [Node.Spans] at h
    rw [visit?, Candidate.visit, visitProperties?_eq hsource properties h.2]
  | .template _ chunks expressions, h => by
    rw [Node.Spans] at h
    rw [visit?, Candidate.visit, visitAll?_eq hsource expressions h.2.2,
      gather?_eq fun chunk _ => ofChunk?_eq hsource chunk]
    rfl
  | .declarator _ (some name) (some init), h => by
    rw [Node.Spans] at h
    rw [visit?, Candidate.visit]
    split
    · exact visit?_eq hsource init h.2
    · rfl
  | .declarator _ none _, _ | .declarator _ _ none, _ | .identifier .., _ | .tagged .., _
  | .call .., _ | .classAttribute .., _ | .other _, _ => by simp [visit?, Candidate.visit]

theorem visitAll?_eq (hsource : byteLength source.toList < wordLimit) :
    ∀ ns : List Node, Node.AllSpans Span.Addressable ns →
      visitAll? source options ns = some (Candidate.visitAll source options ns)
  | [], _ => by rw [visitAll?, Candidate.visitAll]
  | n :: ns, h => by
    rw [Node.AllSpans] at h
    rw [visitAll?, Candidate.visitAll, visit?_eq hsource n h.1, visitAll?_eq hsource ns h.2]
    rfl

theorem visitProperties?_eq (hsource : byteLength source.toList < wordLimit) :
    ∀ ps : List Property, Property.AllSpans Span.Addressable ps →
      visitProperties? source options ps = some (Candidate.visitProperties source options ps)
  | [], _ => by rw [visitProperties?, Candidate.visitProperties]
  | .entry key value :: ps, h => by
    rw [Property.AllSpans] at h
    obtain ⟨hkey, hvalue, hps⟩ := h
    rw [visitProperties?, Candidate.visitProperties, ignores?_eq hkey, visit?_eq hsource key hkey,
      visit?_eq hsource value hvalue, visitProperties?_eq hsource ps hps]
    cases Candidate.ignores source options key with
    | true => rfl
    | false => rfl
  | .spread _ :: ps, h => by
    rw [Property.AllSpans] at h
    rw [visitProperties?, Candidate.visitProperties, visitProperties?_eq hsource ps h.2]

end

variable (hsource : byteLength source.toList < wordLimit)

include hsource

theorem ofCall?_eq {callee : Callee} {arguments : List Node}
    (h : Node.AllSpans Span.Addressable arguments) :
    ofCall? source options callee arguments = some (Candidate.ofCall source options callee arguments) := by
  unfold ofCall? Candidate.ofCall
  split
  · exact visitAll?_eq hsource arguments h
  · rfl

theorem ofPart?_eq : ∀ {parts : List AttributePart}, AttributePart.AllSpans Span.Addressable parts →
    ∀ part ∈ parts, ofPart? source options part = some (Candidate.ofPart source options part)
  | .text span :: parts, h, part, hpart => by
    rw [AttributePart.AllSpans] at h
    rcases List.mem_cons.mp hpart with rfl | hpart
    · rfl
    · exact ofPart?_eq h.2 part hpart
  | .mustache span expression :: parts, h, part, hpart => by
    rw [AttributePart.AllSpans] at h
    obtain ⟨-, hexpression, hparts⟩ := h
    rcases List.mem_cons.mp hpart with rfl | hpart
    · cases expression with
      | call =>
        rw [Node.Spans] at hexpression
        exact ofCall?_eq hsource hexpression.2
      | _ => exact visit?_eq hsource _ hexpression
    · exact ofPart?_eq hparts part hpart

theorem ofRoot?_eq {root : Node} (h : root.Spans Span.Addressable) :
    ofRoot? source options root = some (Candidate.ofRoot source options root) := by
  cases root with
  | call =>
    rw [Node.Spans] at h
    exact ofCall?_eq hsource h.2
  | tagged =>
    rw [Node.Spans] at h
    rw [ofRoot?, Candidate.ofRoot]
    split
    · exact visit?_eq hsource _ h.2
    · rfl
  | declarator => exact visit?_eq hsource _ h
  | classAttribute =>
    rw [Node.Spans] at h
    exact gather?_eq (ofPart?_eq hsource h.2)
  | _ => rfl

theorem collect?_eq {roots : List Node} (h : ∀ root ∈ roots, root.Spans Span.Addressable) :
    collect? source options roots = some (Candidate.collect source options roots) :=
  gather?_eq fun root hroot => ofRoot?_eq hsource (h root hroot)

end Collecting

/-- The first class is no repeat, so there is a run in front of each one that is. -/
theorem dedupe?_eq (tokens runs : List String) (head : Bool) :
    dedupe? tokens runs head = some (ClassList.dedupe tokens runs head) := by
  obtain ⟨gaps, hgaps⟩ := ClassList.Layout.repeats_pos tokens
  have hdropped : ∀ i ∈ ClassList.repeats 0 tokens,
      (if head then some i else sub? i 1) = some (if head then i else i - 1) := by
    intro i hi
    rw [hgaps] at hi
    obtain ⟨gap, -, rfl⟩ := List.mem_map.mp hi
    rw [sub?_eq (by omega)]
    split
    · rfl
    · rfl
  rw [dedupe?, mapM_eq hdropped]
  rfl

theorem rebuild?_eq (list : ClassList) (sorted : List String) (removeDuplicates : Bool) :
    rebuild? list sorted removeDuplicates = some (list.rebuild sorted removeDuplicates) := by
  unfold rebuild? ClassList.rebuild
  rw [dedupe?_eq]
  cases removeDuplicates with
  | true => rfl
  | false => rfl

theorem violations?_eq (orders : OrderMap) (removeDuplicates : Bool) (candidates : List Candidate) :
    violations? orders removeDuplicates candidates =
      some (Sorting.violations orders removeDuplicates candidates) := by
  have hfound : ∀ c ∈ candidates, violation? orders removeDuplicates c =
      some (Sorting.violation? orders removeDuplicates c) := by
    intro c _
    rw [violation?, rebuild?_eq]
    rfl
  rw [violations?, mapM_eq hfound]
  simp [Sorting.violations, List.filterMap_map]

/-- The sorting rule stays among the words, whatever is ranked and however. -/
theorem sorting?_eq {σ κ : Type} (o : Ranking σ κ) {source : String} {roots : List Node}
    (options : SortOptions) (r : Resolver κ) (s : σ) (hsource : byteLength source.toList < wordLimit)
    (h : ∀ root ∈ roots, root.Spans Span.Addressable) :
    sorting? o source roots options r s = some (Sorting.check o source roots options r s) := by
  rw [sorting?, collect?_eq hsource h, Sorting.check]
  dsimp only [Option.bind_eq_bind, Option.bind_some]
  split
  · rfl
  · generalize r.resolve o ((Candidate.collect source options roots).flatMap
      fun c => (ClassList.parse c.body).tokens) s = answer
    obtain ⟨_ | orders, r', s'⟩ := answer
    · rfl
    · simp [violations?_eq]

/-- The grouping rule stays among the words. -/
theorem grouping?_eq {source : String} {root : Node} (h : root.Spans Span.Addressable) :
    grouping? source root = some (Grouping.check source root) := by
  unfold grouping?
  split
  · next span parts =>
    rw [Node.Spans] at h
    rw [Grouping.check]
    split
    · rfl
    · next hsize =>
      simp only [Bool.or_eq_true, decide_eq_true_eq, not_or, Nat.not_lt] at hsize
      rw [inner?_eq h.1 hsize.2]
      rfl
  · next hother =>
    rw [Grouping.check]
    exact hother

end Checked

end ClassSort
