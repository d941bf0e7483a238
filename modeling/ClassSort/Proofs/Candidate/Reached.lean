import ClassSort.Proofs.Candidate.Places
import ClassSort.Proofs.Source.Texts
import ClassSort.Rule.Sorting
import Mathlib.Data.List.Infix

/-!
What collection finds. A class text is found exactly if it can be reached from a root: into the arguments
of a listed call, the template of a listed tag, a selected variable or a class attribute, and from there
down through the forms that can hold class texts. The texts are listed by their places in the forest.
-/

namespace ClassSort

def Declarations.Selected (d : Declarations) (name : String) : Prop :=
  (∃ p ∈ d.leading, p.toList <+: name.toList) ∨ (∃ s ∈ d.trailing, s.toList <:+ name.toList) ∨
    name ∈ d.names

theorem Declarations.selects_iff {d : Declarations} {name : String} :
    d.selects name = true ↔ d.Selected name := by
  simp only [selects, Selected, Bool.or_eq_true, List.any_eq_true, List.isPrefixOf_iff_prefix,
    List.isSuffixOf_iff_suffix, List.contains_iff_mem, or_assoc]

theorem hasPlaceholder_iff {text : String} :
    hasPlaceholder text = true ↔ ['\x7b', '\x7b'] <:+: text.toList := by
  unfold hasPlaceholder
  induction text.toList with
  | nil => simp [hasPlaceholder.opens]
  | cons c cs ih =>
    rw [List.infix_cons_iff, ← ih]
    by_cases hopens : ['\x7b', '\x7b'] <+: c :: cs
    · obtain ⟨rest, hrest⟩ := hopens
      simp [← hrest, hasPlaceholder.opens]
    · simp only [hopens, false_or]
      rw [hasPlaceholder.opens]
      intro rest
      rintro rfl rfl
      exact hopens ⟨rest, rfl⟩

namespace Candidate

structure Sortable (c : Candidate) : Prop where
  several : 2 ≤ (ClassList.parse c.body).tokens.length
  plain : ¬ ['\x7b', '\x7b'] <:+: c.body.toList

inductive Ignored (source : String) (options : SortOptions) : Node → Prop
  | name {span : Span} {name : String} (listed : name ∈ options.ignoredKeys) :
      Ignored source options (.identifier span name)
  | literal {span : Span} {name : String} (size : 2 ≤ span.size)
      (covers : slice? source span.inner = some name) (listed : name ∈ options.ignoredKeys) :
      Ignored source options (.literal span)

inductive Holds (source : String) : Node → List Nat → Candidate → Prop
  | literal {span : Span} {body : String} (size : 2 ≤ span.size)
      (covers : slice? source span.inner = some body) :
      Holds source (.literal span) [] ⟨span.inner, "", body, ""⟩
  | chunk {span : Span} {chunks : List Chunk} {expressions : List Node} {i : Nat} {chunk : Chunk}
      {text before after : String} (stands : chunks[i]? = some chunk)
      (covers : slice? source chunk.span = some text) (nonempty : chunk.raw ≠ "")
      (cut : FirstCut chunk.raw.toList text.toList before.toList after.toList) :
      Holds source (.template span chunks expressions) [1, i] ⟨chunk.span, before, chunk.raw, after⟩

/-- A node right below another one, at a place where classes are looked for. -/
inductive Step (source : String) (options : SortOptions) : Node → List Nat → Node → Prop
  | element {span : Span} {elements : List Node} {i : Nat} {n : Node} (stands : elements[i]? = some n) :
      Step source options (.array span elements) [i] n
  | left {span : Span} {left right : Node} : Step source options (.binary span left right) [0] left
  | right {span : Span} {left right : Node} : Step source options (.binary span left right) [1] right
  | otherwise {span : Span} {left right : Node} :
      Step source options (.logical span left right) [1] right
  | consequent {span : Span} {test consequent alternate : Node} :
      Step source options (.conditional span test consequent alternate) [1] consequent
  | alternate {span : Span} {test consequent alternate : Node} :
      Step source options (.conditional span test consequent alternate) [2] alternate
  | key {span : Span} {properties : List Property} {i : Nat} {key value : Node}
      (stands : properties[i]? = some (.entry key value)) (kept : ¬ Ignored source options key) :
      Step source options (.object span properties) [i, 0] key
  | value {span : Span} {properties : List Property} {i : Nat} {key value : Node}
      (stands : properties[i]? = some (.entry key value)) (kept : ¬ Ignored source options key) :
      Step source options (.object span properties) [i, 1] value
  | expression {span : Span} {chunks : List Chunk} {expressions : List Node} {i : Nat} {n : Node}
      (stands : expressions[i]? = some n) :
      Step source options (.template span chunks expressions) [0, i] n

/-- The same, and from a selected variable to what it is declared as. -/
inductive Deeper (source : String) (options : SortOptions) : Node → List Nat → Node → Prop
  | step {n m : Node} {place : List Nat} (move : Step source options n place m) :
      Deeper source options n place m
  | initializer {span : Span} {name : String} {init : Node} (selected : options.declarations.Selected name) :
      Deeper source options (.declarator span (some name) (some init)) [] init

/-- A text that is reached from a node by any number of steps. -/
inductive Reached (source : String) (step : Node → List Nat → Node → Prop) :
    Node → List Nat → Candidate → Prop
  | here {n : Node} {place : List Nat} {c : Candidate} (holds : Holds source n place c)
      (sortable : c.Sortable) : Reached source step n place c
  | deeper {n m : Node} {place path : List Nat} {c : Candidate} (move : step n place m)
      (rest : Reached source step m path c) : Reached source step n (place ++ path) c

inductive FromRoot (source : String) (options : SortOptions) (step : Node → List Nat → Node → Prop) :
    Node → List Nat → Candidate → Prop
  | argument {span : Span} {callee : Callee} {name : String} {arguments : List Node} {i : Nat} {n : Node}
      {path : List Nat} {c : Candidate} (called : callee.name? = some name)
      (listed : name ∈ options.callees) (stands : arguments[i]? = some n)
      (rest : Reached source step n path c) :
      FromRoot source options step (.call span callee arguments) (i :: path) c
  | template {span : Span} {tag : Callee} {name : String} {template : Node} {path : List Nat}
      {c : Candidate} (tagged : tag.name? = some name) (listed : name ∈ options.tags)
      (rest : Reached source step template path c) :
      FromRoot source options step (.tagged span tag template) path c
  | initializer {span : Span} {name : String} {init : Node} {path : List Nat} {c : Candidate}
      (selected : options.declarations.Selected name) (rest : Reached source step init path c) :
      FromRoot source options step (.declarator span (some name) (some init)) path c
  | text {span range : Span} {isQuoted : Bool} {parts : List AttributePart} {i : Nat} {body : String}
      (stands : parts[i]? = some (.text range)) (covers : slice? source range = some body)
      (sortable : Sortable ⟨range, "", body, ""⟩) :
      FromRoot source options step (.classAttribute span isQuoted parts) [i] ⟨range, "", body, ""⟩
  | mustache {span range : Span} {isQuoted : Bool} {parts : List AttributePart} {i : Nat} {n : Node}
      {path : List Nat} {c : Candidate} (stands : parts[i]? = some (.mustache range n))
      (rest : Reached source step n path c) :
      FromRoot source options step (.classAttribute span isQuoted parts) (i :: path) c
  | call {span range span' : Span} {isQuoted : Bool} {parts : List AttributePart} {i : Nat}
      {callee : Callee} {arguments : List Node} {path : List Nat} {c : Candidate}
      (stands : parts[i]? = some (.mustache range (.call span' callee arguments)))
      (rest : FromRoot source options step (.call span' callee arguments) path c) :
      FromRoot source options step (.classAttribute span isQuoted parts) (i :: path) c

variable {source : String} {options : SortOptions} {c : Candidate}

theorem sortable_iff : c.Sortable ↔ hasPlaceholder c.body = false ∧ (ClassList.parse c.body).isSortable = true := by
  constructor
  · rintro ⟨hseveral, hplain⟩
    exact ⟨Bool.eq_false_iff.mpr fun h => hplain (hasPlaceholder_iff.mp h), decide_eq_true hseveral⟩
  · rintro ⟨hplain, hseveral⟩
    exact ⟨of_decide_eq_true hseveral, fun h => Bool.eq_false_iff.mp hplain (hasPlaceholder_iff.mpr h)⟩

theorem ignores_iff {n : Node} : ignores source options n = true ↔ Ignored source options n := by
  constructor
  · intro h
    cases n with
    | identifier span name => exact .name (List.contains_iff_mem.mp h)
    | literal span =>
      simp only [ignores, Bool.and_eq_true, decide_eq_true_eq, Option.any_eq_true] at h
      obtain ⟨hsize, name, hname, hlisted⟩ := h
      exact .literal hsize hname (List.contains_iff_mem.mp hlisted)
    | _ => cases h
  · intro h
    cases h with
    | name hlisted => exact List.contains_iff_mem.mpr hlisted
    | literal hsize hname hlisted => simp [ignores, hsize, hname, hlisted]

theorem keep_lists (c : Candidate) : Lists (fun path d => path = [] ∧ d = c ∧ c.Sortable) (keep c) := by
  unfold keep
  by_cases hc : c.Sortable
  · obtain ⟨hplain, hseveral⟩ := sortable_iff.mp hc
    rw [hplain, hseveral]
    exact (Lists.single [] c).congr fun _ _ => by simp [hc]
  · have hskipped : (hasPlaceholder c.body || !(ClassList.parse c.body).isSortable) = true := by
      by_contra h
      simp only [Bool.or_eq_true, not_or, Bool.not_eq_true, Bool.not_eq_false'] at h
      exact hc (sortable_iff.mpr h)
    rw [if_pos hskipped]
    exact .nil fun _ _ ⟨_, _, hsortable⟩ => hc hsortable

theorem ofText_lists (range : Span) : Lists (fun path c => path = [] ∧ ∃ body,
    slice? source range = some body ∧ c = ⟨range, "", body, ""⟩ ∧ c.Sortable) (ofText source range) := by
  unfold ofText
  split
  · next body hbody =>
    refine (keep_lists _).congr fun path c => and_congr_right fun _ => ?_
    simp only [hbody, Option.some.injEq, exists_eq_left']
    exact and_congr_right fun hc => by rw [hc]
  · next hnone =>
    refine .nil fun path c h => ?_
    obtain ⟨-, body, hbody, -⟩ := h
    exact nomatch hnone.symm.trans hbody

theorem ofChunk_lists (chunk : Chunk) : Lists (fun path c => path = [] ∧ ∃ text before after : String,
    slice? source chunk.span = some text ∧ chunk.raw ≠ "" ∧
      FirstCut chunk.raw.toList text.toList before.toList after.toList ∧
      c = ⟨chunk.span, before, chunk.raw, after⟩ ∧ c.Sortable) (ofChunk source chunk) := by
  unfold ofChunk
  split
  · next before body after hcut =>
    obtain ⟨text, htext, hsplit⟩ := Option.bind_eq_some_iff.mp hcut
    obtain ⟨hraw, rfl, hfirst⟩ := splitTemplate?_eq_some_iff.mp hsplit
    refine (keep_lists _).congr fun path c => and_congr_right fun _ => ?_
    constructor
    · rintro ⟨rfl, hsortable⟩
      exact ⟨text, before, after, htext, hraw, hfirst, rfl, hsortable⟩
    · rintro ⟨text', before', after', htext', -, hfirst', rfl, hsortable⟩
      obtain rfl := Option.some.inj (htext.symm.trans htext')
      obtain ⟨hbefore, hafter⟩ := hfirst.unique hfirst'
      rw [String.toList_inj] at hbefore hafter
      subst hbefore hafter
      exact ⟨rfl, hsortable⟩
  · next hnone =>
    refine .nil fun path c h => ?_
    obtain ⟨-, text, before, after, htext, hraw, hfirst, -⟩ := h
    rw [htext, Option.bind_some, splitTemplate?_eq_some_iff.mpr ⟨hraw, rfl, hfirst⟩] at hnone
    cases hnone

/-- What stands at a node, or below it. -/
theorem reached_iff {step : Node → List Nat → Node → Prop} {n : Node} {path : List Nat} :
    Reached source step n path c ↔ (Holds source n path c ∧ c.Sortable) ∨
      ∃ place m rest, path = place ++ rest ∧ step n place m ∧ Reached source step m rest c := by
  constructor
  · rintro (⟨hholds, hsortable⟩ | ⟨hstep, hrest⟩)
    · exact .inl ⟨hholds, hsortable⟩
    · exact .inr ⟨_, _, _, rfl, hstep, hrest⟩
  · rintro (⟨hholds, hsortable⟩ | ⟨place, m, rest, rfl, hstep, hrest⟩)
    · exact .here hholds hsortable
    · exact .deeper hstep hrest

def Entered (source : String) (options : SortOptions) : Property → List Nat → Candidate → Prop
  | .entry key value, path, c => ¬ Ignored source options key ∧
      ((∃ rest, path = 0 :: rest ∧ Reached source (Deeper source options) key rest c) ∨
        ∃ rest, path = 1 :: rest ∧ Reached source (Deeper source options) value rest c)
  | .spread _, _, _ => False

theorem ofLiteral_lists (span : Span) : Lists (fun path c => 2 ≤ span.size ∧ path = [] ∧ ∃ body,
    slice? source span.inner = some body ∧ c = ⟨span.inner, "", body, ""⟩ ∧ c.Sortable)
    (ofLiteral source span) :=
  (ofText_lists span.inner).guard

theorem declared_lists {span : Span} {init : Node} (name : String)
    (h : Lists (Reached source (Deeper source options) init) (visit source options init)) :
    Lists (fun path c => options.declarations.Selected name ∧ Reached source (Deeper source options) init path c)
      (visit source options (.declarator span (some name) (some init))) := by
  rw [visit]
  exact h.guard.congr fun _ _ => and_congr_left fun _ => Declarations.selects_iff

theorem entry_lists {key value : Node}
    (hkey : Lists (Reached source (Deeper source options) key) (visit source options key))
    (hvalue : Lists (Reached source (Deeper source options) value) (visit source options value)) :
    Lists (Entered source options (.entry key value))
      (if ignores source options key then [] else visit source options key ++ visit source options value) := by
  rw [← ite_not]
  exact (Lists.fork Nat.zero_lt_one hkey hvalue).guard.congr fun _ _ =>
    and_congr_left fun _ => not_congr ignores_iff

mutual
theorem visit_lists : ∀ n : Node, Lists (Reached source (Deeper source options) n) (visit source options n)
  | .array span elements => by
    refine (visitAll_lists elements 0).congr fun path c => ?_
    rw [reached_iff]
    constructor
    · rintro ⟨i, n, rest, hstands, rfl, hrest⟩
      exact .inr ⟨[i], n, rest, by simp, .step (.element hstands), hrest⟩
    · rintro (⟨⟨⟩, -⟩ | ⟨_, n, rest, rfl, ⟨⟨hstands⟩⟩, hrest⟩)
      exact ⟨_, n, rest, hstands, by simp, hrest⟩
  | .binary span left right => by
    refine (Lists.fork Nat.zero_lt_one (visit_lists left) (visit_lists right)).congr fun path c => ?_
    rw [reached_iff]
    constructor
    · rintro (⟨rest, rfl, hrest⟩ | ⟨rest, rfl, hrest⟩)
      · exact .inr ⟨[0], left, rest, rfl, .step .left, hrest⟩
      · exact .inr ⟨[1], right, rest, rfl, .step .right, hrest⟩
    · rintro (⟨⟨⟩, -⟩ | ⟨_, _, rest, rfl, ⟨⟨⟩⟩, hrest⟩)
      · exact .inl ⟨rest, rfl, hrest⟩
      · exact .inr ⟨rest, rfl, hrest⟩
  | .logical span left right => by
    refine ((visit_lists right).under 1).congr fun path c => ?_
    rw [reached_iff]
    constructor
    · rintro ⟨rest, rfl, hrest⟩
      exact .inr ⟨[1], right, rest, rfl, .step .otherwise, hrest⟩
    · rintro (⟨⟨⟩, -⟩ | ⟨_, _, rest, rfl, ⟨⟨⟩⟩, hrest⟩)
      exact ⟨rest, rfl, hrest⟩
  | .conditional span test consequent alternate => by
    refine (Lists.fork (Nat.lt_succ_self 1) (visit_lists consequent) (visit_lists alternate)).congr
      fun path c => ?_
    rw [reached_iff]
    constructor
    · rintro (⟨rest, rfl, hrest⟩ | ⟨rest, rfl, hrest⟩)
      · exact .inr ⟨[1], consequent, rest, rfl, .step .consequent, hrest⟩
      · exact .inr ⟨[2], alternate, rest, rfl, .step .alternate, hrest⟩
    · rintro (⟨⟨⟩, -⟩ | ⟨_, _, rest, rfl, ⟨⟨⟩⟩, hrest⟩)
      · exact .inl ⟨rest, rfl, hrest⟩
      · exact .inr ⟨rest, rfl, hrest⟩
  | .literal span => by
    refine (ofLiteral_lists span).congr fun path c => ?_
    rw [reached_iff]
    constructor
    · rintro ⟨hsize, rfl, body, hbody, rfl, hsortable⟩
      exact .inl ⟨.literal hsize hbody, hsortable⟩
    · rintro (⟨⟨hsize, hbody⟩, hsortable⟩ | ⟨_, _, _, -, ⟨⟨⟩⟩, -⟩)
      exact ⟨hsize, rfl, _, hbody, rfl, hsortable⟩
  | .object span properties => by
    refine (visitProperties_lists properties 0).congr fun path c => ?_
    rw [reached_iff]
    constructor
    · rintro ⟨i, ⟨key, value⟩ | _, rest, hstands, rfl, hrest⟩
      · obtain ⟨hkept, ⟨rest, rfl, hrest⟩ | ⟨rest, rfl, hrest⟩⟩ := hrest
        · exact .inr ⟨[i, 0], key, rest, by simp, .step (.key hstands hkept), hrest⟩
        · exact .inr ⟨[i, 1], value, rest, by simp, .step (.value hstands hkept), hrest⟩
      · cases hrest
    · rintro (⟨⟨⟩, -⟩ | ⟨_, _, rest, rfl, ⟨hstep⟩, hrest⟩)
      cases hstep with
      | @key _ _ i _ _ hstands hkept =>
        exact ⟨i, _, 0 :: rest, hstands, by simp, hkept, .inl ⟨rest, rfl, hrest⟩⟩
      | @value _ _ i _ _ hstands hkept =>
        exact ⟨i, _, 1 :: rest, hstands, by simp, hkept, .inr ⟨rest, rfl, hrest⟩⟩
  | .template span chunks expressions => by
    refine (Lists.fork Nat.zero_lt_one (visitAll_lists expressions 0)
      (.among (fun chunk _ => ofChunk_lists chunk) 0)).congr fun path c => ?_
    rw [reached_iff]
    constructor
    · rintro (⟨_, rfl, i, n, rest, hstands, rfl, hrest⟩ | ⟨_, rfl, i, chunk, _, hstands, rfl, rfl, hchunk⟩)
      · exact .inr ⟨[0, i], n, rest, by simp, .step (.expression hstands), hrest⟩
      · obtain ⟨text, before, after, htext, hraw, hfirst, rfl, hsortable⟩ := hchunk
        rw [Nat.zero_add]
        exact .inl ⟨.chunk hstands htext hraw hfirst, hsortable⟩
    · rintro (⟨hholds, hsortable⟩ | ⟨_, n, rest, rfl, ⟨hstep⟩, hrest⟩)
      · cases hholds with
        | @chunk _ _ _ i chunk _ _ _ hstands htext hraw hfirst =>
          exact .inr ⟨[i], rfl, i, chunk, [], hstands, by simp, rfl, _, _, _, htext, hraw, hfirst, rfl,
            hsortable⟩
      · cases hstep with
        | @expression _ _ _ i _ hstands => exact .inl ⟨i :: rest, rfl, i, n, rest, hstands, by simp, hrest⟩
  | .declarator span (some name) (some init) => by
    refine (declared_lists name (visit_lists init)).congr fun path c => .trans ?_ reached_iff.symm
    constructor
    · rintro ⟨hselected, hrest⟩
      exact .inr ⟨[], init, path, rfl, .initializer hselected, hrest⟩
    · rintro (⟨⟨⟩, -⟩ | ⟨_, _, rest, rfl, ⟨⟨⟩⟩ | hselected, hrest⟩)
      exact ⟨hselected, hrest⟩
  | .identifier .. | .tagged .. | .call .. | .classAttribute .. | .other .. | .declarator _ none _
  | .declarator _ (some _) none => by
    refine .nil fun path c h => ?_
    rcases reached_iff.mp h with ⟨⟨⟩, -⟩ | ⟨_, _, _, -, ⟨⟨⟩⟩, -⟩

theorem visitAll_lists : ∀ (ns : List Node) (first : Nat),
    Lists (Among (Reached source (Deeper source options)) ns first) (visitAll source options ns)
  | [], _ => .among_nil
  | n :: rest, first => .among_cons (visit_lists n) (visitAll_lists rest (first + 1))

theorem visitProperties_lists : ∀ (ps : List Property) (first : Nat),
    Lists (Among (Entered source options) ps first) (visitProperties source options ps)
  | [], _ => .among_nil
  | .entry key value :: rest, first =>
    .among_cons (entry_lists (visit_lists key) (visit_lists value)) (visitProperties_lists rest (first + 1))
  | .spread _ :: rest, first =>
    .among_cons (.nil fun _ _ => id) (visitProperties_lists rest (first + 1))
end

/-- The names that settings list. -/
theorem any_contains_iff {name : Option String} {listed : List String} :
    name.any listed.contains = true ↔ ∃ n, name = some n ∧ n ∈ listed := by
  simp [Option.any_eq_true]

theorem ofCall_lists (span : Span) (callee : Callee) (arguments : List Node) :
    Lists (FromRoot source options (Deeper source options) (.call span callee arguments))
      (ofCall source options callee arguments) := by
  refine (visitAll_lists arguments 0).guard.congr fun path c => ?_
  rw [any_contains_iff]
  constructor
  · rintro ⟨⟨name, hname, hlisted⟩, i, n, rest, hstands, rfl, hrest⟩
    rw [Nat.zero_add]
    exact .argument hname hlisted hstands hrest
  · intro h
    cases h with
    | @argument _ _ name _ i n rest _ hname hlisted hstands hrest =>
      exact ⟨⟨name, hname, hlisted⟩, i, n, rest, hstands, by rw [Nat.zero_add], hrest⟩

def FromPart (source : String) (options : SortOptions) : AttributePart → List Nat → Candidate → Prop
  | .text range, path, c => path = [] ∧ ∃ body,
      slice? source range = some body ∧ c = ⟨range, "", body, ""⟩ ∧ c.Sortable
  | .mustache _ n, path, c => Reached source (Deeper source options) n path c ∨
      ∃ span callee arguments, n = .call span callee arguments ∧
        FromRoot source options (Deeper source options) n path c

theorem not_reached_call {span : Span} {callee : Callee} {arguments : List Node} {path : List Nat} :
    ¬ Reached source (Deeper source options) (.call span callee arguments) path c := by
  intro h
  rcases reached_iff.mp h with ⟨⟨⟩, -⟩ | ⟨_, _, _, -, ⟨⟨⟩⟩, -⟩

theorem ofPart_lists (part : AttributePart) :
    Lists (FromPart source options part) (ofPart source options part) := by
  cases part with
  | text range => exact ofText_lists range
  | mustache range n =>
    cases n with
    | call span callee arguments =>
      refine (ofCall_lists span callee arguments).congr fun path c => ?_
      constructor
      · intro h
        exact .inr ⟨_, _, _, rfl, h⟩
      · rintro (h | ⟨_, _, _, -, h⟩)
        · exact absurd h not_reached_call
        · exact h
    | _ =>
      refine (visit_lists _).congr fun path c => ?_
      constructor
      · exact .inl
      · rintro (h | ⟨_, _, _, ⟨⟩, -⟩)
        exact h

theorem ofRoot_lists (root : Node) : Lists (FromRoot source options (Deeper source options) root)
    (ofRoot source options root) := by
  cases root with
  | call span callee arguments => exact ofCall_lists span callee arguments
  | tagged span tag template =>
    refine (visit_lists template).guard.congr fun path c => ?_
    rw [any_contains_iff]
    constructor
    · rintro ⟨⟨name, hname, hlisted⟩, hrest⟩
      exact .template hname hlisted hrest
    · intro h
      cases h with
      | template hname hlisted hrest => exact ⟨⟨_, hname, hlisted⟩, hrest⟩
  | declarator span name init =>
    refine (visit_lists (.declarator span name init)).congr fun path c => reached_iff.trans ?_
    constructor
    · rintro (⟨⟨⟩, -⟩ | ⟨_, _, rest, rfl, ⟨⟨⟩⟩ | hselected, hrest⟩)
      exact .initializer hselected hrest
    · intro h
      cases h with
      | initializer hselected hrest => exact .inr ⟨[], _, _, rfl, .initializer hselected, hrest⟩
  | classAttribute span isQuoted parts =>
    refine (Lists.among (fun part _ => ofPart_lists part) 0).congr fun path c => ?_
    constructor
    · rintro ⟨i, part, rest, hstands, rfl, hrest⟩
      rw [Nat.zero_add]
      cases part with
      | text range =>
        obtain ⟨rfl, body, hbody, rfl, hsortable⟩ := hrest
        exact .text hstands hbody hsortable
      | mustache range n =>
        rcases hrest with hrest | ⟨_, _, _, rfl, hrest⟩
        · exact .mustache hstands hrest
        · exact .call hstands hrest
    · intro h
      cases h with
      | @text _ range _ _ i body hstands hbody hsortable =>
        exact ⟨i, _, [], hstands, by simp, rfl, body, hbody, rfl, hsortable⟩
      | @mustache _ _ _ _ i n rest _ hstands hrest =>
        exact ⟨i, _, rest, hstands, by simp, .inl hrest⟩
      | @call _ _ _ _ _ i _ _ rest _ hstands hrest =>
        exact ⟨i, _, rest, hstands, by simp, .inr ⟨_, _, _, rfl, hrest⟩⟩
  | _ => exact .nil fun _ _ => nofun

/-! What collection does not go into. -/

mutual
def shown (source : String) (options : SortOptions) : Node → Node
  | .array span elements => .array span (shownAll source options elements)
  | .binary span left right => .binary span (shown source options left) (shown source options right)
  | .logical span left right => .logical span (.other left.span) (shown source options right)
  | .conditional span test consequent alternate =>
    .conditional span (.other test.span) (shown source options consequent) (shown source options alternate)
  | .object span properties => .object span (shownProperties source options properties)
  | .template span chunks expressions => .template span chunks (shownAll source options expressions)
  | .declarator span (some name) (some init) =>
    if options.declarations.selects name then .declarator span (some name) (some (shown source options init))
    else .other span
  | .literal span => .literal span
  | .identifier span name => .identifier span name
  | n => .other n.span

def shownAll (source : String) (options : SortOptions) : List Node → List Node
  | [] => []
  | node :: rest => shown source options node :: shownAll source options rest

def shownProperties (source : String) (options : SortOptions) : List Property → List Property
  | [] => []
  | .entry key value :: rest =>
    (if ignores source options key then .spread key.span
      else .entry (shown source options key) (shown source options value)) ::
      shownProperties source options rest
  | .spread span :: rest => .spread span :: shownProperties source options rest
end

def shownCall (source : String) (options : SortOptions) (span : Span) (callee : Callee)
    (arguments : List Node) : Node :=
  if callee.name?.any options.callees.contains then .call span callee (shownAll source options arguments)
  else .other span

def shownPart (source : String) (options : SortOptions) : AttributePart → AttributePart
  | .text span => .text span
  | .mustache range (.call span callee arguments) =>
    .mustache range (shownCall source options span callee arguments)
  | .mustache range n => .mustache range (shown source options n)

def shownRoot (source : String) (options : SortOptions) : Node → Node
  | .call span callee arguments => shownCall source options span callee arguments
  | .tagged span tag template =>
    if tag.name?.any options.tags.contains then .tagged span tag (shown source options template)
    else .other span
  | .declarator span name init => shown source options (.declarator span name init)
  | .classAttribute span isQuoted parts =>
    .classAttribute span isQuoted (parts.map (shownPart source options))
  | n => .other n.span

/-- A variable that is not gone into is not there any more. -/
theorem shown_declarator (source : String) (options : SortOptions) (span : Span) (name : Option String) (init : Option Node) :
    (∃ init', shown source options (.declarator span name init) = .declarator span name init') ∨
      shown source options (.declarator span name init) = .other span := by
  match name, init with
  | none, _ | some _, none => exact .inr rfl
  | some name, some init =>
    rw [shown]
    split
    · exact .inl ⟨_, rfl⟩
    · exact .inr rfl

theorem ignores_shown (n : Node) :
    ignores source options (shown source options n) = ignores source options n := by
  cases n with
  | declarator span name init =>
    rcases shown_declarator source options span name init with ⟨_, h⟩ | h <;>
      rw [h] <;> rfl
  | _ => rfl

mutual
theorem visit_shown : ∀ n : Node, visit source options (shown source options n) = visit source options n
  | .array span elements => by rw [shown, visit, visit, visitAll_shown elements]
  | .binary span left right => by rw [shown, visit, visit, visit_shown left, visit_shown right]
  | .logical span left right => by rw [shown, visit, visit, visit_shown right]
  | .conditional span test consequent alternate => by
    rw [shown, visit, visit, visit_shown consequent, visit_shown alternate]
  | .object span properties => by rw [shown, visit, visit, visitProperties_shown properties]
  | .template span chunks expressions => by rw [shown, visit, visit, visitAll_shown expressions]
  | .declarator span (some name) (some init) => by
    rw [shown, visit]
    split
    · next hselected => rw [visit, if_pos hselected, visit_shown init]
    · rfl
  | .literal .. | .identifier .. | .tagged .. | .call .. | .classAttribute .. | .other ..
  | .declarator _ none _ | .declarator _ (some _) none => rfl

theorem visitAll_shown : ∀ ns : List Node,
    visitAll source options (shownAll source options ns) = visitAll source options ns
  | [] => rfl
  | n :: rest => by rw [shownAll, visitAll, visitAll, visit_shown n, visitAll_shown rest]

theorem visitProperties_shown : ∀ ps : List Property,
    visitProperties source options (shownProperties source options ps) = visitProperties source options ps
  | [] => rfl
  | .entry key value :: rest => by
    rw [shownProperties, visitProperties]
    split
    · rw [visitProperties, visitProperties_shown rest, List.nil_append]
    · next hkept =>
      rw [visitProperties, ignores_shown, if_neg hkept, visit_shown key, visit_shown value,
        visitProperties_shown rest]
  | .spread span :: rest => by
    rw [shownProperties, visitProperties, visitProperties, visitProperties_shown rest]
end

theorem ofCall_shown (span : Span) (callee : Callee) (arguments : List Node) :
    ofRoot source options (shownCall source options span callee arguments) =
      ofCall source options callee arguments := by
  unfold shownCall ofCall
  split
  · next hlisted => rw [ofRoot, ofCall, if_pos hlisted, visitAll_shown]
  · rfl

theorem ofPart_shown (part : AttributePart) :
    ofPart source options (shownPart source options part) = ofPart source options part := by
  cases part with
  | text range => rfl
  | mustache range n =>
    cases n with
    | call span callee arguments =>
      rw [shownPart, ofPart, ← ofCall_shown span]
      unfold shownCall
      split <;> rfl
    | declarator span name init =>
      have hvisit : visit source options (shown source options (.declarator span name init)) = _ :=
        visit_shown _
      rcases shown_declarator source options span name init with ⟨_, h⟩ | h <;>
        · rw [h] at hvisit
          rw [shownPart, h]
          · exact hvisit
          · intro span' callee arguments hcall
            cases hcall
    | _ => exact visit_shown _

theorem ofRoot_shown (root : Node) :
    ofRoot source options (shownRoot source options root) = ofRoot source options root := by
  cases root with
  | call span callee arguments => exact ofCall_shown span callee arguments
  | tagged span tag template =>
    rw [shownRoot, ofRoot]
    split
    · next hlisted => rw [ofRoot, if_pos hlisted, visit_shown]
    · rfl
  | declarator span name init =>
    rw [shownRoot, ofRoot, ← visit_shown]
    rcases shown_declarator source options span name init with ⟨_, h⟩ | h <;>
      rw [h] <;> rfl
  | classAttribute span isQuoted parts =>
    rw [shownRoot, ofRoot, ofRoot, List.flatMap_map]
    exact List.flatMap_congr fun part _ => ofPart_shown part
  | _ => rfl

theorem collect_shown (roots : List Node) :
    collect source options (roots.map (shownRoot source options)) = collect source options roots := by
  rw [collect, collect, List.flatMap_map]
  exact List.flatMap_congr fun root _ => ofRoot_shown root

/-- A text that is reached from a root of a forest. The root has the first number of the place. -/
def Found (source : String) (options : SortOptions) (step : Node → List Nat → Node → Prop)
    (roots : List Node) (path : List Nat) (c : Candidate) : Prop :=
  ∃ i root rest, roots[i]? = some root ∧ path = i :: rest ∧ FromRoot source options step root rest c

/-- Collection finds every text that can be reached from a root, once for each way to it and in the order
of the places, and nothing else. What it does not go into plays no part in what is reported. -/
theorem collect_finds (source : String) (options : SortOptions) (roots : List Node) :
    Lists (Found source options (Deeper source options) roots) (collect source options roots) ∧
      ∀ {σ κ : Type} (o : Ranking σ κ) (r : Resolver κ) (s : σ),
        Sorting.check o source (roots.map (shownRoot source options)) options r s =
          Sorting.check o source roots options r s := by
  refine ⟨(Lists.among (fun root _ => ofRoot_lists root) 0).congr fun path c => ?_, fun o r s => ?_⟩
  · simp only [Among, Found, Nat.zero_add]
  · unfold Sorting.check
    rw [collect_shown]

def nestedVariable : List Node :=
  [.call ⟨0, 17⟩ (.name "clsx") [.declarator ⟨5, 16⟩ (some "twA") (some (.literal ⟨11, 16⟩))]]

def prefixOptions : SortOptions := { SortOptions.standard with declarations := ⟨["tw"], [], []⟩ }

/-- Variables are gone into wherever they stand, and not as roots only. -/
theorem nestedVariable_collected : ¬ Lists
    (Found "clsx(twA = 'b a')" prefixOptions (Step "clsx(twA = 'b a')" prefixOptions) nestedVariable)
    (collect "clsx(twA = 'b a')" prefixOptions nestedVariable) := by
  rintro ⟨located, hmap, -, hmem⟩
  have hcollect : collect "clsx(twA = 'b a')" prefixOptions nestedVariable =
      [⟨⟨12, 15⟩, "", "b a", ""⟩] := by decide +kernel
  rw [hcollect] at hmap
  obtain ⟨⟨path, c⟩, rest, rfl, -, -⟩ := List.map_eq_cons_iff.mp hmap
  obtain ⟨i, root, rest, hroot, -, hfound⟩ := (hmem path c).mp List.mem_cons_self
  obtain rfl := List.eq_of_mem_singleton (List.mem_of_getElem? hroot)
  cases hfound with
  | argument _ _ hstands hrest =>
    obtain rfl := List.eq_of_mem_singleton (List.mem_of_getElem? hstands)
    rcases reached_iff.mp hrest with ⟨⟨⟩, -⟩ | ⟨_, _, _, -, ⟨⟩, -⟩

end Candidate

end ClassSort
