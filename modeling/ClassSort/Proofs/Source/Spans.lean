import ClassSort.Node

/-!
What all ranges of a node have in common: its own range and those of everything inside it, the
chunks of templates included.
-/

namespace ClassSort

mutual

/-- Every range in a node is so. -/
def Node.Spans (P : Span → Prop) : Node → Prop
  | .literal s | .identifier s _ | .other s => P s
  | .array s elements => P s ∧ Node.AllSpans P elements
  | .binary s left right | .logical s left right => P s ∧ left.Spans P ∧ right.Spans P
  | .conditional s test consequent alternate =>
    P s ∧ test.Spans P ∧ consequent.Spans P ∧ alternate.Spans P
  | .object s properties => P s ∧ Property.AllSpans P properties
  | .template s chunks expressions =>
    P s ∧ (∀ chunk ∈ chunks, P chunk.span) ∧ Node.AllSpans P expressions
  | .tagged s _ template => P s ∧ template.Spans P
  | .call s _ arguments => P s ∧ Node.AllSpans P arguments
  | .declarator s _ (some init) => P s ∧ init.Spans P
  | .declarator s _ none => P s
  | .classAttribute s _ parts => P s ∧ AttributePart.AllSpans P parts

def Node.AllSpans (P : Span → Prop) : List Node → Prop
  | [] => True
  | n :: ns => n.Spans P ∧ Node.AllSpans P ns

def Property.AllSpans (P : Span → Prop) : List Property → Prop
  | [] => True
  | .entry key value :: ps => key.Spans P ∧ value.Spans P ∧ Property.AllSpans P ps
  | .spread s :: ps => P s ∧ Property.AllSpans P ps

def AttributePart.AllSpans (P : Span → Prop) : List AttributePart → Prop
  | [] => True
  | .text s :: ps => P s ∧ AttributePart.AllSpans P ps
  | .mustache s expression :: ps => P s ∧ expression.Spans P ∧ AttributePart.AllSpans P ps

end

end ClassSort
