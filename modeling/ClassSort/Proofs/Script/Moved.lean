import ClassSort.Proofs.Script.Nesting
import ClassSort.Proofs.Source.Shifted

/-!
What a tree is lowered to where its ranges are other ones. If at those ranges another text reads as the
first one does, then the tree gives the same node there, with the ranges that belong to it. So lowering does
not depend on where a text stands: the same tree in a longer text, moved by what stands in front, gives
the same node, moved likewise.
-/

namespace ClassSort.Script

open Candidate (Ends)

def Form.isName : Form → Bool
  | .identifier | .propertyName | .shorthand => true
  | _ => false

mutual

def Tree.map (p : Span → Span) : Tree → Tree
  | node form s trees => node form (p s) (Tree.mapAll p trees)

def Tree.mapAll (p : Span → Span) : List Tree → List Tree
  | [] => []
  | t :: ts => t.map p :: Tree.mapAll p ts

end

abbrev Tree.shift (k : Nat) : Tree → Tree := Tree.map (Span.shift k)

namespace Tree

variable (p : Span → Span)

theorem mapAll_eq_map (ts : List Tree) : mapAll p ts = ts.map (map p) := by
  induction ts with
  | nil => rfl
  | cons t ts ih => rw [mapAll, List.map_cons, ih]

@[simp] theorem map_form (t : Tree) : (t.map p).form = t.form := by cases t; rfl

@[simp] theorem map_span (t : Tree) : (t.map p).span = p t.span := by cases t; rfl

@[simp] theorem map_children (t : Tree) : (t.map p).children = t.children.map (map p) := by
  obtain ⟨form, s, trees⟩ := t
  exact mapAll_eq_map p trees

mutual

theorem map_id : ∀ t : Tree, t.map id = t
  | node form s trees => by rw [map, mapAll_id trees]; rfl

theorem mapAll_id : ∀ ts : List Tree, mapAll id ts = ts
  | [] => rfl
  | t :: ts => by rw [mapAll, map_id t, mapAll_id ts]

end

mutual

theorem plain_map : ∀ t : Tree, (t.map p).plain = t.plain.map p
  | node form s trees => by rw [map, plain, plain, map, plainAll_mapAll form trees]

theorem plainAll_mapAll (form : Form) : ∀ ts : List Tree, plainAll form (mapAll p ts) = mapAll p (plainAll form ts)
  | [] => rfl
  | t :: ts => by
    rw [mapAll, plainAll, plainAll, map_form, plain_map t, plainAll_mapAll form ts]
    split <;> rfl

end

end Tree

/-- The second node is the first one with other ranges, and the ranges of the first one are so. -/
structure Moved (P : Span → Prop) (q : Span → Span) (r : Chunk → Chunk) (n m : Node) : Prop where
  within : n.Spans P
  eq : m = n.map q r

structure AllMoved (P : Span → Prop) (q : Span → Span) (r : Chunk → Chunk) (ns ms : List Node) : Prop where
  within : Node.AllSpans P ns
  eq : ms = Node.mapAll q r ns

structure EntriesMoved (P : Span → Prop) (q : Span → Span) (r : Chunk → Chunk) (ps qs : List Property) : Prop where
  within : Property.AllSpans P ps
  eq : qs = Property.mapAll q r ps

def Closed (A : Tree → Prop) : Prop := ∀ t, A t → ∀ u ∈ t.children, A u

def Plains (B : Tree → Prop) (u : Tree) : Prop := ∃ t, B t ∧ t.plain = u

/-- Trees that are lowered alike in two texts. Trees with the ranges `p` in the second text give nodes with
the ranges `q` there, and chunks become what `r` makes of them. -/
structure Carries (P : Span → Prop) (p q : Span → Span) (r : Chunk → Chunk) (o o' : Origin)
    (A : Tree → Prop) : Prop where
  closed : Closed A
  place : ∀ {t}, A t → o'.place (p t.span) = q (o.place t.span)
  within : ∀ {t}, A t → P (o.place t.span)
  read : ∀ {t}, A t → t.form.isName = true → o'.read (p t.span) = o.read t.span
  chunks : ∀ {t}, A t → t.form = .template →
    Script.chunks o' (p t.span).stop (p t.span).start (t.children.map (Tree.map p)) =
      (Script.chunks o t.span.stop t.span.start t.children).map r
  chunksWithin : ∀ {t}, A t → t.form = .template →
    ∀ chunk ∈ Script.chunks o t.span.stop t.span.start t.children, P chunk.span

variable {P : Span → Prop} {p q : Span → Span} {r : Chunk → Chunk} {o o' : Origin} {A : Tree → Prop}
  {length f k : Nat} {t : Tree} {ts : List Tree} {form : Form} {s : Span}

theorem AllMoved.nil : AllMoved P q r [] [] := ⟨by rw [Node.AllSpans]; trivial, rfl⟩

theorem Moved.cons {n m : Node} {ns ms : List Node} (h : Moved P q r n m)
    (hs : AllMoved P q r ns ms) : AllMoved P q r (n :: ns) (m :: ms) :=
  ⟨by rw [Node.AllSpans]; exact ⟨h.within, hs.within⟩, by rw [Node.mapAll, h.eq, hs.eq]⟩

theorem AllMoved.append {ns ms ns' ms' : List Node} (h : AllMoved P q r ns ms) (h' : AllMoved P q r ns' ms') :
    AllMoved P q r (ns ++ ns') (ms ++ ms') := by
  obtain ⟨hwithin, rfl⟩ := h
  induction ns with
  | nil => exact h'
  | cons n ns ih =>
    rw [Node.AllSpans] at hwithin
    exact Moved.cons ⟨hwithin.1, rfl⟩ (ih hwithin.2)

theorem EntriesMoved.nil : EntriesMoved P q r [] [] := ⟨by rw [Property.AllSpans]; trivial, rfl⟩

theorem EntriesMoved.entry {key value key' value' : Node} {ps qs : List Property}
    (hkey : Moved P q r key key') (hvalue : Moved P q r value value')
    (h : EntriesMoved P q r ps qs) : EntriesMoved P q r (.entry key value :: ps) (.entry key' value' :: qs) :=
  ⟨by rw [Property.AllSpans]; exact ⟨hkey.within, hvalue.within, h.within⟩,
    by rw [Property.mapAll, hkey.eq, hvalue.eq, h.eq]⟩

namespace Carries

open Script.Tree

section

variable (h : Carries P p q r o o' A)
include h

theorem children (ht : A (node form s ts)) : ∀ t ∈ ts, A t := h.closed _ ht

theorem placed (ht : A (node form s ts)) : o'.place (p s) = q (o.place s) := h.place ht

theorem bounds (ht : A (node form s ts)) : P (o.place s) := h.within ht

theorem other (ht : A (node form s ts)) : Moved P q r (.other (o.place s)) (.other (o'.place (p s))) :=
  ⟨by rw [Node.Spans]; exact h.bounds ht, by rw [Node.map, h.placed ht]⟩

theorem literal (ht : A (node form s ts)) : Moved P q r (.literal (o.place s)) (.literal (o'.place (p s))) :=
  ⟨by rw [Node.Spans]; exact h.bounds ht, by rw [Node.map, h.placed ht]⟩

theorem reads (ht : A (node form s ts)) (hform : form.isName = true) : o'.read (p s) = o.read s := h.read ht hform

theorem identifier (ht : A (node form s ts)) (hform : form.isName = true) : Moved P q r
    (.identifier (o.place s) (o.read s)) (.identifier (o'.place (p s)) (o'.read (p s))) :=
  ⟨by rw [Node.Spans]; exact h.bounds ht, by rw [Node.map, h.placed ht, h.reads ht hform]⟩

/-- A template with all that stands in it. -/
theorem template (ht : A (node .template s ts))
    (hts : AllMoved P q r (substitutions o ts) (substitutions o' (Tree.mapAll p ts))) :
    Moved P q r (.template (o.place s) (Script.chunks o s.stop s.start ts) (substitutions o ts))
      (.template (o'.place (p s)) (Script.chunks o' (p s).stop (p s).start (Tree.mapAll p ts))
        (substitutions o' (Tree.mapAll p ts))) := by
  have hchunks : Script.chunks o' (p s).stop (p s).start (ts.map (Tree.map p)) = _ := h.chunks ht rfl
  have hwithin : ∀ chunk ∈ Script.chunks o s.stop s.start ts, P chunk.span := h.chunksWithin ht rfl
  exact ⟨by rw [Node.Spans]; exact ⟨h.bounds ht, hwithin, hts.within⟩,
    by rw [Node.map, h.placed ht, hts.eq, mapAll_eq_map, hchunks]; rfl⟩

theorem callee_moved : ∀ {t : Tree}, A t → callee o' (t.map p) = callee o t
  | node form s ts, ht => by
    rw [Tree.map]
    cases form with
    | identifier => rw [callee, callee, h.reads ht rfl]
    | member =>
      rcases ts with _ | ⟨object, _ | ⟨property, _ | ⟨third, rest⟩⟩⟩
      · rfl
      · simp [Tree.mapAll, callee]
      · have hobject := h.children ht object (by simp)
        have hproperty := h.children ht property (by simp)
        obtain ⟨form, object, inside⟩ := object
        cases form with
        | identifier =>
          obtain ⟨form', property, inside'⟩ := property
          cases form' with
          | propertyName =>
            simp only [Tree.mapAll, Tree.map, callee, h.reads hobject rfl, h.reads hproperty rfl]
          | _ => rfl
        | _ => rfl
      · simp [Tree.mapAll, callee]
    | _ => rfl

/-- A declared variable, with or without a value. -/
theorem declarator (ht : A (node form s ts)) (named : Option String) {init init' : Option Node}
    (hinit : Option.Rel (Moved P q r) init init') : Moved P q r (.declarator (o.place s) named init)
      (.declarator (o'.place (p s)) named init') := by
  cases hinit with
  | none => exact ⟨by rw [Node.Spans]; exact h.bounds ht, by rw [Node.map, h.placed ht]⟩
  | some hinit =>
    exact ⟨by rw [Node.Spans]; exact ⟨h.bounds ht, hinit.within⟩, by rw [Node.map, h.placed ht, hinit.eq]⟩

end

mutual

theorem expression_moved (h : Carries P p q r o o' A) : ∀ t : Tree, A t →
    Moved P q r (expression o t) (expression o' (t.map p))
  | node form s ts, ht => by
    have hts := h.children ht
    have hother := h.other ht
    rw [Tree.map]
    cases form with
    | grouping =>
      cases ts with
      | nil => exact hother
      | cons inner rest =>
        simp only [Tree.mapAll, expression]
        exact expression_moved h inner (hts inner List.mem_cons_self)
    | string =>
      simp only [expression]
      exact h.literal ht
    | identifier =>
      simp only [expression]
      exact h.identifier ht rfl
    | array =>
      obtain ⟨hwithin, heq⟩ := expressions_moved h ts hts
      simp only [expression]
      exact ⟨by rw [Node.Spans]; exact ⟨h.bounds ht, hwithin⟩, by rw [Node.map, h.placed ht, heq]⟩
    | object =>
      obtain ⟨hwithin, heq⟩ := properties_moved h ts hts
      simp only [expression]
      exact ⟨by rw [Node.Spans]; exact ⟨h.bounds ht, hwithin⟩, by rw [Node.map, h.placed ht, heq]⟩
    | template =>
      simp only [expression]
      exact h.template ht (substitutions_moved h ts hts)
    | binary | logical =>
      rcases ts with _ | ⟨left, _ | ⟨right, _ | ⟨third, rest⟩⟩⟩
      · exact hother
      · simpa [Tree.mapAll, expression] using hother
      · obtain ⟨hleft, heq⟩ := expression_moved h left (hts _ List.mem_cons_self)
        obtain ⟨hright, heq'⟩ := expression_moved h right (hts _ (List.mem_cons_of_mem _ List.mem_cons_self))
        simp only [Tree.mapAll, expression]
        exact ⟨by rw [Node.Spans]; exact ⟨h.bounds ht, hleft, hright⟩, by rw [Node.map, h.placed ht, heq, heq']⟩
      · simpa [Tree.mapAll, expression] using hother
    | conditional =>
      rcases ts with _ | ⟨test, _ | ⟨consequent, _ | ⟨alternate, _ | ⟨fourth, rest⟩⟩⟩⟩
      · exact hother
      · simpa [Tree.mapAll, expression] using hother
      · simpa [Tree.mapAll, expression] using hother
      · obtain ⟨htest, heq⟩ := expression_moved h test (hts _ (by simp))
        obtain ⟨hconsequent, heq'⟩ := expression_moved h consequent (hts _ (by simp))
        obtain ⟨halternate, heq''⟩ := expression_moved h alternate (hts _ (by simp))
        simp only [Tree.mapAll, expression]
        exact ⟨by rw [Node.Spans]; exact ⟨h.bounds ht, htest, hconsequent, halternate⟩,
          by rw [Node.map, h.placed ht, heq, heq', heq'']⟩
      · simpa [Tree.mapAll, expression] using hother
    | call =>
      cases ts with
      | nil => exact hother
      | cons called rest =>
        simp only [Tree.mapAll, expression]
        rw [h.callee_moved (hts called List.mem_cons_self)]
        exact invocation_moved h ht rest fun t ht => hts t (List.mem_cons_of_mem _ ht)
    | declarator initialized =>
      cases ts with
      | nil => exact hother
      | cons name rest =>
        obtain ⟨hname, hrest⟩ := List.forall_mem_cons.mp hts
        have hinit : Option.Rel (Moved P q r) (if initialized then lastExpression o rest else none)
            (if initialized then lastExpression o' (Tree.mapAll p rest) else none) := by
          split
          · exact lastExpression_moved h rest hrest
          · exact .none
        obtain ⟨form, n, inside⟩ := name
        cases form with
        | identifier =>
          simp only [Tree.mapAll, Tree.map, expression, h.reads hname rfl]
          exact h.declarator ht _ hinit
        | _ =>
          simp only [Tree.mapAll, Tree.map, expression]
          exact h.declarator ht _ hinit
    | _ => exact hother

theorem expressions_moved (h : Carries P p q r o o' A) : ∀ ts : List Tree, (∀ t ∈ ts, A t) →
    AllMoved P q r (expressions o ts) (expressions o' (Tree.mapAll p ts))
  | [], _ => by
    rw [Tree.mapAll, expressions, expressions]
    exact .nil
  | t :: ts, hts => by
    obtain ⟨ht, hrest⟩ := List.forall_mem_cons.mp hts
    rw [Tree.mapAll, expressions, expressions]
    exact (expression_moved h t ht).cons (expressions_moved h ts hrest)

theorem lastExpression_moved (h : Carries P p q r o o' A) : ∀ ts : List Tree, (∀ t ∈ ts, A t) →
    Option.Rel (Moved P q r) (lastExpression o ts) (lastExpression o' (Tree.mapAll p ts))
  | [], _ => by
    rw [Tree.mapAll, lastExpression, lastExpression]
    exact .none
  | [t], hts => by
    simp only [Tree.mapAll, lastExpression]
    exact .some (expression_moved h t (hts t List.mem_cons_self))
  | t :: u :: ts, hts => by
    have hrest := lastExpression_moved h (u :: ts) (List.forall_mem_cons.mp hts).2
    simpa [Tree.mapAll, lastExpression] using hrest

theorem invocation_moved (h : Carries P p q r o o' A) {s : Span} {called : Callee} {all : List Tree}
    (hcall : A (node .call s all)) : ∀ ts : List Tree, (∀ t ∈ ts, A t) → Moved P q r
      (invocation o s called ts) (invocation o' (p s) called (Tree.mapAll p ts))
  | [], _ => by
    rw [Tree.mapAll, invocation, invocation]
    exact h.other hcall
  | [node form span inside], hts => by
    have ht := hts _ List.mem_cons_self
    by_cases hform : form = .template
    · subst hform
      obtain ⟨hwithin, heq⟩ := h.template ht (substitutions_moved h inside (h.children ht))
      simp only [Tree.mapAll, Tree.map, invocation]
      exact ⟨by rw [Node.Spans]; exact ⟨h.bounds hcall, hwithin⟩, by rw [Node.map, h.placed hcall, ← heq]⟩
    · obtain ⟨hwithin, heq⟩ := expressions_moved h inside (h.children ht)
      have hlowered (o : Origin) (s span : Span) (inside : List Tree) :
          invocation o s called [node form span inside] =
            .call (o.place s) called (expressions o inside) := by
        rw [invocation]
        exact fun h => hform h
      simp only [Tree.mapAll, Tree.map, hlowered]
      exact ⟨by rw [Node.Spans]; exact ⟨h.bounds hcall, hwithin⟩, by rw [Node.map, h.placed hcall, heq]⟩
  | t :: u :: ts, hts => by
    have hrest : Moved _ _ _ (invocation o s called (u :: ts)) _ :=
      invocation_moved h hcall (u :: ts) (List.forall_mem_cons.mp hts).2
    simpa [Tree.mapAll, invocation] using hrest

theorem substitutions_moved (h : Carries P p q r o o' A) : ∀ ts : List Tree, (∀ t ∈ ts, A t) →
    AllMoved P q r (substitutions o ts) (substitutions o' (Tree.mapAll p ts))
  | [], _ => by
    rw [Tree.mapAll, substitutions, substitutions]
    exact .nil
  | node _ _ (inner :: _) :: ts, hts => by
    obtain ⟨ht, hrest⟩ := List.forall_mem_cons.mp hts
    simp only [Tree.mapAll, Tree.map, substitutions]
    exact (expression_moved h inner (h.children ht _ List.mem_cons_self)).cons (substitutions_moved h ts hrest)
  | node _ s [] :: ts, hts => by
    obtain ⟨ht, hrest⟩ := List.forall_mem_cons.mp hts
    simp only [Tree.mapAll, Tree.map, substitutions]
    exact (h.other ht).cons (substitutions_moved h ts hrest)

theorem properties_moved (h : Carries P p q r o o' A) : ∀ ts : List Tree, (∀ t ∈ ts, A t) →
    EntriesMoved P q r (properties o ts) (properties o' (Tree.mapAll p ts))
  | [], _ => by
    rw [Tree.mapAll, properties, properties]
    exact .nil
  | node form s inside :: ts, hts => by
    obtain ⟨ht, hrest⟩ := List.forall_mem_cons.mp hts
    have hrest := properties_moved h ts hrest
    have hinside := h.children ht
    rw [Tree.mapAll, Tree.map]
    cases form with
    | pair =>
      rcases inside with _ | ⟨name, _ | ⟨value, _ | ⟨third, rest⟩⟩⟩
      · simpa [Tree.mapAll, properties] using hrest
      · simpa [Tree.mapAll, properties] using hrest
      · simp only [Tree.mapAll, properties]
        exact .entry (key_moved h name (hinside _ (by simp))) (expression_moved h value (hinside _ (by simp))) hrest
      · simpa [Tree.mapAll, properties] using hrest
    | shorthand =>
      simp only [properties]
      exact .entry (h.identifier ht rfl) (h.identifier ht rfl) hrest
    | method =>
      cases inside with
      | nil => simpa [Tree.mapAll, properties] using hrest
      | cons name rest =>
        simp only [Tree.mapAll, properties]
        exact .entry (key_moved h name (hinside _ (by simp))) (h.other ht) hrest
    | spread =>
      simp only [properties]
      obtain ⟨hwithin, heq⟩ := hrest
      exact ⟨by rw [Property.AllSpans]; exact ⟨h.bounds ht, hwithin⟩,
        by rw [Property.mapAll, heq, ← h.placed ht]⟩
    | _ => simpa [properties] using hrest

theorem key_moved (h : Carries P p q r o o' A) : ∀ t : Tree, A t → Moved P q r (key o t) (key o' (t.map p))
  | node form s ts, ht => by
    have hother := h.other ht
    rw [Tree.map]
    cases form with
    | propertyName => exact h.identifier ht rfl
    | string => exact h.literal ht
    | computed =>
      cases ts with
      | nil => exact hother
      | cons inner rest =>
        simp only [Tree.mapAll, key]
        exact expression_moved h inner (h.children ht inner List.mem_cons_self)
    | _ => exact hother

end

section

variable {B : Tree → Prop}

mutual

theorem treeRoots_moved (h : Carries P p q r o o' A) (hB : Closed B)
    (hA : ∀ {t}, B t → A t.plain) : ∀ t : Tree, B t →
    AllMoved P q r (treeRoots o t) (treeRoots o' (t.map p))
  | node form s ts, ht => by
    have hroot := h.expression_moved _ (hA ht)
    have hinside := forestRoots_moved h hB hA ts (hB _ ht)
    rw [← plain_map] at hroot
    rw [Tree.map] at hroot ⊢
    rw [treeRoots, treeRoots]
    split
    · exact (hroot.cons .nil).append hinside
    · exact hinside

theorem forestRoots_moved (h : Carries P p q r o o' A) (hB : Closed B)
    (hA : ∀ {t}, B t → A t.plain) : ∀ ts : List Tree, (∀ t ∈ ts, B t) →
    AllMoved P q r (forestRoots o ts) (forestRoots o' (Tree.mapAll p ts))
  | [], _ => .nil
  | t :: ts, hts => by
    obtain ⟨ht, hrest⟩ := List.forall_mem_cons.mp hts
    rw [Tree.mapAll, forestRoots, forestRoots]
    exact (treeRoots_moved h hB hA t ht).append (forestRoots_moved h hB hA ts hrest)

end

theorem soleExpression_moved (h : Carries P p q r o o' A) (hA : ∀ {t}, B t → A t.plain) (hts : ∀ t ∈ ts, B t) :
    Option.Rel (Moved P q r) (soleExpression o ts) (soleExpression o' (Tree.mapAll p ts)) := by
  unfold soleExpression
  rw [plainAll_mapAll, plainAll_eq]
  rcases hkept : Form.other.kept ts with _ | ⟨t, rest⟩
  · exact .none
  · have ht : B t := hts t ((Form.kept_sublist _ ts).subset (by rw [hkept]; exact List.mem_cons_self))
    have hplain := hA ht
    rw [List.map_cons, Tree.mapAll]
    generalize t.plain = u at hplain ⊢
    obtain ⟨form, s, inside⟩ := u
    cases form with
    | expressionStatement =>
      cases inside with
      | nil => exact .none
      | cons e es =>
        simp only [Tree.map, Tree.mapAll]
        exact .some (h.expression_moved e (h.children hplain e List.mem_cons_self))
    | _ => exact .none

end

end Carries

open Script.Tree

theorem Closed.plains {B : Tree → Prop} (hB : Closed B) : Closed (Plains B) := by
  rintro _ ⟨t, ht, rfl⟩
  rw [plain_children]
  refine List.forall_mem_map.mpr fun u hu => ⟨u, ?_, rfl⟩
  exact hB t ht u ((Form.kept_sublist _ _).subset hu)

/-- Chunks are told by the ranges of the substitutions. -/
theorem chunks_map_plain (o : Origin) (stop start : Nat) (ts : List Tree) :
    chunks o stop start (ts.map plain) = chunks o stop start ts := by
  induction ts generalizing start with
  | nil => rfl
  | cons t ts ih => rw [List.map_cons, chunks, chunks, plain_span, ih]

/-! A text that begins elsewhere in a file. -/

theorem carries_offset (text : List Char) (k : Nat) : Carries (fun _ => True) id (Span.shift k) (Chunk.shift k)
    ⟨text, 0⟩ ⟨text, k⟩ fun _ => True where
  closed _ _ _ _ := trivial
  place _ := rfl
  within _ := trivial
  read _ _ := rfl
  chunks {t} _ _ := by
    have hmap : t.children.map (Tree.map id) = t.children := by rw [← mapAll_eq_map, mapAll_id]
    have hchunks (ts : List Tree) (stop start : Nat) :
        Script.chunks ⟨text, k⟩ stop start ts = (Script.chunks ⟨text, 0⟩ stop start ts).map (Chunk.shift k) := by
      induction ts generalizing start with
      | nil => rfl
      | cons t ts ih => rw [Script.chunks, Script.chunks, List.map_cons, ih]; rfl
    rw [hmap]
    exact hchunks _ _ _
  chunksWithin _ _ _ _ := trivial

/-! A text inside of another one. -/

def Tree.Bounded (length : Nat) (t : Tree) : Prop := t.Sound ∧ t.span.stop ≤ length

namespace Tree

theorem Row.bounded {declares : Bool} {a b : Nat} (h : Row declares a b ts) : ∀ t ∈ ts, t.Bounded b :=
  fun t ht => ⟨h.sound t ht, h.stop_le t ht⟩

theorem Bounded.children (h : t.Bounded length) : ∀ u ∈ t.children, u.Bounded length := by
  obtain ⟨form, s, ts⟩ := t
  obtain ⟨hsound, hstop⟩ := h
  obtain ⟨-, -, -, hrow⟩ := sound_node.mp hsound
  have hinside : (form.inside s).stop ≤ s.stop := by
    unfold Form.inside
    split
    · exact Nat.sub_le ..
    · exact Nat.le_refl _
  exact fun t ht => ⟨hrow.sound t ht, Nat.le_trans (Row.stop_le hrow t ht) (Nat.le_trans hinside hstop)⟩

theorem Sound.size (h : t.Sound) (hform : t.form = .substitution) : t.span.start + 3 ≤ t.span.stop := by
  obtain ⟨form, s, ts⟩ := t
  exact (sound_node.mp h).2.1 hform

theorem Sound.kept_size (h : t.Sound) (hform : t.form = .template) : ∀ u ∈ t.form.kept t.children,
    u.span.start + 3 ≤ u.span.stop ∧ u.span.stop ≤ t.span.stop := by
  obtain ⟨form, s, ts⟩ := t
  obtain rfl : form = .template := hform
  obtain ⟨-, -, -, hrow⟩ := sound_node.mp h
  intro u hu
  have hmem := (Form.kept_sublist _ ts).subset hu
  refine ⟨(hrow.sound u hmem).size ?_, Row.stop_le hrow u hmem⟩
  have hkeeps : Form.template.keeps u.form = true := (List.mem_filter.mp hu).2
  revert hkeeps
  cases u.form <;> simp [Form.keeps]

end Tree

/-- The text of `o` stands in that of `o'` behind `f` bytes, and in the file behind `k`. -/
structure Origin.Embeds (o o' : Origin) (f k : Nat) : Prop where
  text : ∃ front back, o'.text = front ++ o.text ++ back ∧ byteLength front = f
  start : o.offset = 0
  offset : o'.offset + f = k

namespace Origin.Embeds

variable (h : o.Embeds o' f k)
include h

theorem place (s : Span) : o'.place (s.shift f) = (o.place s).shift k := by
  have hoffset := h.offset
  simp only [Origin.place, Span.shift, h.start, Span.mk.injEq]
  omega

theorem within (hs : s.stop ≤ length) : Ends length (o.place s) := by
  rw [Origin.place, h.start, Span.shift_zero]
  exact hs

theorem read (hs : s.stop ≤ byteLength o.text) : o'.read (s.shift f) = o.read s := by
  obtain ⟨front, back, htext, rfl⟩ := h.text
  rw [Origin.read, Origin.read, htext, sliceChars?_embedded hs]

/-- A chunk whose text would end in front of where it begins has no text. -/
theorem chunk {start stop rawStop rawStop' : Nat} (hraw : rawStop ≤ byteLength o.text)
    (hsame : rawStop' = rawStop + f ∨ rawStop ≤ start ∧ rawStop' ≤ start + f) :
    o'.chunk (start + f) (stop + f) rawStop' = (o.chunk start stop rawStop).shift k := by
  have hplace : o'.place ⟨start + f, stop + f⟩ = (o.place ⟨start, stop⟩).shift k :=
    h.place ⟨start, stop⟩
  have hread : o'.read ⟨start + f + 1, rawStop'⟩ = o.read ⟨start + 1, rawStop⟩ := by
    rcases hsame with rfl | ⟨hbehind, hbehind'⟩
    · have hshift := h.read (s := ⟨start + 1, rawStop⟩) hraw
      rwa [Span.shift, show start + 1 + f = start + f + 1 by omega] at hshift
    · have hnone {text : List Char} {a b : Nat} (hab : b < a) : sliceChars? text ⟨a, b⟩ = none := by
        rw [sliceChars?, if_pos hab]
      rw [Origin.read, Origin.read, hnone (Nat.lt_succ_of_le hbehind), hnone (Nat.lt_succ_of_le hbehind')]
  rw [Origin.chunk, Origin.chunk, hplace, hread]
  rfl

theorem chunks {stop : Nat} (start : Nat)
    (hts : ∀ t ∈ ts, t.span.start + 3 ≤ t.span.stop ∧ t.span.stop ≤ stop) (hstop : stop ≤ byteLength o.text) :
    (∀ chunk ∈ Script.chunks o stop start ts, Ends (byteLength o.text) chunk.span) ∧
      Script.chunks o' (stop + f) (start + f) (ts.map (Tree.shift f)) =
        (Script.chunks o stop start ts).map (Chunk.shift k) := by
  induction ts generalizing start with
  | nil =>
    refine ⟨?_, ?_⟩
    · simpa [Script.chunks, Origin.chunk] using h.within (s := ⟨start, stop⟩) hstop
    · rw [List.map_nil, Script.chunks, Script.chunks, List.map_singleton]
      have hlast : stop + f - 1 = stop - 1 + f ∨ stop - 1 ≤ start ∧ stop + f - 1 ≤ start + f := by omega
      rw [h.chunk (Nat.le_trans (Nat.sub_le stop 1) hstop) hlast]
  | cons t ts ih =>
    obtain ⟨⟨hsize, hend⟩, hothers⟩ := List.forall_mem_cons.mp hts
    have hbegin : t.span.stop + f - 1 = t.span.stop - 1 + f := by omega
    obtain ⟨hwithin, heq⟩ := ih (t.span.stop - 1) hothers
    rw [← hbegin] at heq
    have hfirst : o'.chunk (start + f) (t.span.start + 2 + f) (t.span.start + f) =
        (o.chunk start (t.span.start + 2) t.span.start).shift k := h.chunk (by omega) (.inl rfl)
    have hbetween : t.span.start + f + 2 = t.span.start + 2 + f := Nat.add_right_comm ..
    refine ⟨?_, ?_⟩
    · rw [Script.chunks]
      exact List.forall_mem_cons.mpr
        ⟨h.within (s := ⟨start, t.span.start + 2⟩) (by dsimp only; omega), hwithin⟩
    · simp only [List.map_cons, Script.chunks, Tree.map_span, Span.shift] at heq ⊢
      rw [hbetween, hfirst, heq]

/-- The trees of a text are lowered alike where the text stands in another one. -/
theorem carries : Carries (Ends (byteLength o.text)) (Span.shift f) (Span.shift k) (Chunk.shift k) o o'
    (Plains (Tree.Bounded (byteLength o.text))) := by
  have hchunks {t : Tree} (ht : t.Bounded (byteLength o.text)) (hform : t.plain.form = .template) :=
    h.chunks t.span.start (ht.1.kept_size (by rwa [plain_form] at hform)) ht.2
  refine { closed := Closed.plains fun _ => Bounded.children, place := ?_, within := ?_, read := ?_, chunks := ?_, chunksWithin := ?_ }
  · rintro _ ⟨t, -, rfl⟩
    exact h.place _
  · rintro _ ⟨t, ht, rfl⟩
    rw [plain_span]
    exact h.within ht.2
  · rintro _ ⟨t, ht, rfl⟩ -
    rw [plain_span]
    exact h.read ht.2
  · rintro _ ⟨t, ht, rfl⟩ hform
    have hplain : (t.form.kept t.children).map (Tree.map (Span.shift f) ∘ plain) =
        ((t.form.kept t.children).map (Tree.shift f)).map plain := by
      rw [List.map_map]
      exact List.map_congr_left fun u _ => (plain_map _ u).symm
    rw [plain_children, List.map_map, hplain, chunks_map_plain, chunks_map_plain, plain_span]
    exact (hchunks ht hform).2
  · rintro _ ⟨t, ht, rfl⟩ hform
    rw [plain_children, chunks_map_plain, plain_span]
    exact (hchunks ht hform).1

end Origin.Embeds

end ClassSort.Script
