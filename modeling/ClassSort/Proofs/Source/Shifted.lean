import ClassSort.Candidate
import ClassSort.Proofs.Source.Spans
import ClassSort.Proofs.Text.Cuts
import Mathlib.Data.List.Basic

/-!
A text that stands inside another one has the same class texts there, each moved by what stands in
front of it. Only nodes whose ranges stay within the text are so: a range that runs on behind it
would read something else in the other one.
-/

namespace ClassSort

def Candidate.shift (k : Nat) (c : Candidate) : Candidate := { c with range := c.range.shift k }

def Chunk.shift (k : Nat) (c : Chunk) : Chunk := { c with span := c.span.shift k }

mutual

def Node.map (p : Span → Span) (q : Chunk → Chunk) : Node → Node
  | .literal s => .literal (p s)
  | .identifier s name => .identifier (p s) name
  | .array s elements => .array (p s) (Node.mapAll p q elements)
  | .binary s left right => .binary (p s) (left.map p q) (right.map p q)
  | .logical s left right => .logical (p s) (left.map p q) (right.map p q)
  | .conditional s test consequent alternate =>
    .conditional (p s) (test.map p q) (consequent.map p q) (alternate.map p q)
  | .object s properties => .object (p s) (Property.mapAll p q properties)
  | .template s chunks expressions => .template (p s) (chunks.map q) (Node.mapAll p q expressions)
  | .tagged s tag template => .tagged (p s) tag (template.map p q)
  | .call s callee arguments => .call (p s) callee (Node.mapAll p q arguments)
  | .declarator s name (some init) => .declarator (p s) name (some (init.map p q))
  | .declarator s name none => .declarator (p s) name none
  | .classAttribute s isQuoted parts => .classAttribute (p s) isQuoted (AttributePart.mapAll p q parts)
  | .other s => .other (p s)

def Node.mapAll (p : Span → Span) (q : Chunk → Chunk) : List Node → List Node
  | [] => []
  | n :: ns => n.map p q :: Node.mapAll p q ns

def Property.mapAll (p : Span → Span) (q : Chunk → Chunk) : List Property → List Property
  | [] => []
  | .entry key value :: ps => .entry (key.map p q) (value.map p q) :: Property.mapAll p q ps
  | .spread s :: ps => .spread (p s) :: Property.mapAll p q ps

def AttributePart.mapAll (p : Span → Span) (q : Chunk → Chunk) : List AttributePart → List AttributePart
  | [] => []
  | .text s :: ps => .text (p s) :: AttributePart.mapAll p q ps
  | .mustache s expression :: ps => .mustache (p s) (expression.map p q) :: AttributePart.mapAll p q ps

end

/-- The same node in a text that has `k` more bytes in front. -/
abbrev Node.shift (k : Nat) : Node → Node := Node.map (Span.shift k) (Chunk.shift k)

theorem Node.mapAll_eq_map (p : Span → Span) (q : Chunk → Chunk) (ns : List Node) :
    Node.mapAll p q ns = ns.map (Node.map p q) := by
  induction ns with
  | nil => rw [mapAll, List.map_nil]
  | cons n ns ih => rw [mapAll, List.map_cons, ih]

namespace Candidate

theorem shift_injective (k : Nat) : Function.Injective (Candidate.shift k) := by
  rintro ⟨⟨a, b⟩, before, body, after⟩ ⟨⟨c, d⟩, before', body', after'⟩ h
  simpa [Candidate.shift, Span.shift] using h

theorem mem_map_shift {k : Nat} {c : Candidate} {cs : List Candidate} :
    c.shift k ∈ cs.map (shift k) ↔ c ∈ cs :=
  List.mem_map_of_injective (shift_injective k)

theorem keep_shift (k : Nat) (c : Candidate) : keep (c.shift k) = (keep c).map (shift k) := by
  unfold keep
  rw [apply_ite (List.map (shift k))]
  rfl

/-- What holds two bytes has the same inside wherever it stands. -/
theorem inner_shift {s : Span} (k : Nat) (hsize : 2 ≤ s.size) : (s.shift k).inner = s.inner.shift k := by
  simp only [Span.size, Span.shift, Span.inner, Span.mk.injEq] at hsize ⊢
  omega

/-- Within a text of this length. -/
def Ends (length : Nat) (s : Span) : Prop := s.stop ≤ length

variable {source text : String} {options : SortOptions} {k : Nat}

def Embeds (source text : String) (k : Nat) : Prop :=
  ∃ front back, source.toList = front ++ text.toList ++ back ∧ byteLength front = k

variable (h : Embeds source text k)

include h

theorem slice?_shift {s : Span} (hs : Ends (byteLength text.toList) s) :
    slice? source (s.shift k) = slice? text s := by
  obtain ⟨front, back, hsource, rfl⟩ := h
  rw [slice?, slice?, hsource, sliceChars?_embedded hs]

theorem ofText_shift {s : Span} (hs : Ends (byteLength text.toList) s) :
    ofText source (s.shift k) = (ofText text s).map (shift k) := by
  unfold ofText
  rw [slice?_shift h hs]
  split
  · exact keep_shift k ⟨s, _, _, _⟩
  · rfl

theorem ofChunk_shift {chunk : Chunk} (hs : Ends (byteLength text.toList) chunk.span) :
    ofChunk source (chunk.shift k) = (ofChunk text chunk).map (shift k) := by
  have hslice : slice? source (chunk.shift k).span = slice? text chunk.span := slice?_shift h hs
  unfold ofChunk
  rw [hslice]
  dsimp only [Chunk.shift]
  split
  · exact keep_shift k ⟨chunk.span, _, _, _⟩
  · rfl

theorem ofLiteral_shift {s : Span} (hs : Ends (byteLength text.toList) s) :
    ofLiteral source (s.shift k) = (ofLiteral text s).map (shift k) := by
  unfold ofLiteral
  rw [Span.size_shift]
  split
  · next hsize =>
    rw [inner_shift k hsize]
    exact ofText_shift h (Nat.le_trans (Nat.sub_le ..) hs)
  · rfl

theorem ignores_shift {key : Node} (hkey : key.Spans (Ends (byteLength text.toList))) :
    ignores source options (key.shift k) = ignores text options key := by
  cases key with
  | literal s =>
    rw [Node.Spans] at hkey
    rw [Node.shift, Node.map, ignores, ignores, Span.size_shift]
    by_cases hsize : 2 ≤ s.size
    · have hinner : slice? source (s.inner.shift k) = slice? text s.inner :=
        slice?_shift h (Nat.le_trans (Nat.sub_le ..) hkey)
      rw [inner_shift k hsize, hinner]
    · simp [hsize]
  | declarator s name init => cases init <;> rfl
  | _ => rfl

omit h

mutual

theorem visit_shift (h : Embeds source text k) : ∀ n : Node, n.Spans (Ends (byteLength text.toList)) →
    visit source options (n.shift k) = (visit text options n).map (shift k)
  | .array _ elements, hn => by
    rw [Node.Spans] at hn
    rw [Node.shift, Node.map, visit, visit, visitAll_shift h elements hn.2]
  | .binary _ left right, hn => by
    rw [Node.Spans] at hn
    rw [Node.shift, Node.map, visit, visit, visit_shift h left hn.2.1, visit_shift h right hn.2.2, List.map_append]
  | .logical _ _ right, hn => by
    rw [Node.Spans] at hn
    rw [Node.shift, Node.map, visit, visit, visit_shift h right hn.2.2]
  | .conditional _ _ consequent alternate, hn => by
    rw [Node.Spans] at hn
    rw [Node.shift, Node.map, visit, visit, visit_shift h consequent hn.2.2.1, visit_shift h alternate hn.2.2.2,
      List.map_append]
  | .literal s, hn => by
    rw [Node.Spans] at hn
    rw [Node.shift, Node.map, visit, visit, ofLiteral_shift h hn]
  | .object _ properties, hn => by
    rw [Node.Spans] at hn
    rw [Node.shift, Node.map, visit, visit, visitProperties_shift h properties hn.2]
  | .template _ chunks expressions, hn => by
    rw [Node.Spans] at hn
    obtain ⟨-, hchunks, hexpressions⟩ := hn
    have hchunks : (chunks.map (Chunk.shift k)).flatMap (ofChunk source) =
        (chunks.flatMap (ofChunk text)).map (shift k) := by
      rw [List.flatMap_map, List.map_flatMap]
      exact List.flatMap_congr fun chunk hchunk => ofChunk_shift h (hchunks chunk hchunk)
    rw [Node.shift, Node.map, visit, visit, visitAll_shift h expressions hexpressions, hchunks, List.map_append]
  | .declarator _ (some name) (some init), hn => by
    rw [Node.Spans] at hn
    rw [Node.shift, Node.map, visit, visit]
    split
    · exact visit_shift h init hn.2
    · rfl
  | .declarator _ none (some init), _ | .declarator _ _ none, _ | .identifier .., _ | .tagged .., _
  | .call .., _ | .classAttribute .., _ | .other _, _ => by simp [Node.map, visit]

theorem visitAll_shift (h : Embeds source text k) :
    ∀ ns : List Node, Node.AllSpans (Ends (byteLength text.toList)) ns →
      visitAll source options (Node.mapAll (Span.shift k) (Chunk.shift k) ns) = (visitAll text options ns).map (shift k)
  | [], _ => by rw [Node.mapAll, visitAll, visitAll, List.map_nil]
  | n :: ns, hn => by
    rw [Node.AllSpans] at hn
    rw [Node.mapAll, visitAll, visitAll, visit_shift h n hn.1, visitAll_shift h ns hn.2, List.map_append]

theorem visitProperties_shift (h : Embeds source text k) :
    ∀ ps : List Property, Property.AllSpans (Ends (byteLength text.toList)) ps →
      visitProperties source options (Property.mapAll (Span.shift k) (Chunk.shift k) ps) =
        (visitProperties text options ps).map (shift k)
  | [], _ => by rw [Property.mapAll, visitProperties, visitProperties, List.map_nil]
  | .entry key value :: ps, hn => by
    rw [Property.AllSpans] at hn
    obtain ⟨hkey, hvalue, hps⟩ := hn
    rw [Property.mapAll, visitProperties, visitProperties, ignores_shift h hkey, visit_shift h key hkey,
      visit_shift h value hvalue, visitProperties_shift h ps hps, List.map_append,
      apply_ite (List.map (shift k)), List.map_append, List.map_nil]
  | .spread _ :: ps, hn => by
    rw [Property.AllSpans] at hn
    rw [Property.mapAll, visitProperties, visitProperties, visitProperties_shift h ps hn.2]

end

end Candidate

end ClassSort
