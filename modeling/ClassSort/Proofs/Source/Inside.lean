import ClassSort.Proofs.Source.Shifted

/-!
The nodes inside a node, at whatever depth. Where ranges change, those of each of them change
with the node around it, and nothing else of them does.
-/

namespace ClassSort

mutual

def Node.descendants : Node → List Node
  | .array _ elements => Node.allInside elements
  | .binary _ left right | .logical _ left right => left :: left.descendants ++ right :: right.descendants
  | .conditional _ test consequent alternate =>
    test :: test.descendants ++ consequent :: consequent.descendants ++ alternate :: alternate.descendants
  | .object _ properties => Property.allInside properties
  | .template _ _ expressions => Node.allInside expressions
  | .tagged _ _ template => template :: template.descendants
  | .call _ _ arguments => Node.allInside arguments
  | .declarator _ _ (some init) => init :: init.descendants
  | .classAttribute _ _ parts => AttributePart.allInside parts
  | .declarator _ _ none | .literal _ | .identifier _ _ | .other _ => []

def Node.allInside : List Node → List Node
  | [] => []
  | n :: ns => n :: n.descendants ++ Node.allInside ns

def Property.allInside : List Property → List Node
  | [] => []
  | .entry key value :: ps => key :: key.descendants ++ value :: value.descendants ++ Property.allInside ps
  | .spread _ :: ps => Property.allInside ps

def AttributePart.allInside : List AttributePart → List Node
  | [] => []
  | .text _ :: ps => AttributePart.allInside ps
  | .mustache _ expression :: ps => expression :: expression.descendants ++ AttributePart.allInside ps

end

namespace Node

def inside (n : Node) : List Node := n :: n.descendants

/-- The ranges of a node that texts are read from: those of literals, names and chunks. -/
def texts : Node → List Span
  | literal s | identifier s _ => [s]
  | template _ chunks _ => chunks.map (·.span)
  | _ => []

end Node

mutual

theorem Node.descendants_map (p : Span → Span) (q : Chunk → Chunk) : ∀ n : Node, (n.map p q).descendants = n.descendants.map (Node.map p q)
  | .array _ elements => by
    rw [Node.map, Node.descendants, Node.descendants, Node.allInside_map p q elements]
  | .binary _ left right => by
    simp [Node.map, Node.descendants, Node.descendants_map p q left, Node.descendants_map p q right]
  | .logical _ left right => by
    simp [Node.map, Node.descendants, Node.descendants_map p q left, Node.descendants_map p q right]
  | .conditional _ test consequent alternate => by
    simp [Node.map, Node.descendants, Node.descendants_map p q test, Node.descendants_map p q consequent,
      Node.descendants_map p q alternate]
  | .object _ properties => by
    rw [Node.map, Node.descendants, Node.descendants, Property.allInside_map p q properties]
  | .template _ _ expressions => by
    rw [Node.map, Node.descendants, Node.descendants, Node.allInside_map p q expressions]
  | .tagged _ _ template => by simp [Node.map, Node.descendants, Node.descendants_map p q template]
  | .call _ _ arguments => by
    rw [Node.map, Node.descendants, Node.descendants, Node.allInside_map p q arguments]
  | .declarator _ _ (some init) => by simp [Node.map, Node.descendants, Node.descendants_map p q init]
  | .classAttribute _ _ parts => by
    rw [Node.map, Node.descendants, Node.descendants, AttributePart.allInside_map p q parts]
  | .declarator _ _ none | .literal _ | .identifier _ _ | .other _ => by simp [Node.map, Node.descendants]

theorem Node.allInside_map (p : Span → Span) (q : Chunk → Chunk) : ∀ ns : List Node,
    Node.allInside (Node.mapAll p q ns) = (Node.allInside ns).map (Node.map p q)
  | [] => by rw [Node.mapAll, Node.allInside, List.map_nil]
  | n :: ns => by simp [Node.mapAll, Node.allInside, Node.descendants_map p q n, Node.allInside_map p q ns]

theorem Property.allInside_map (p : Span → Span) (q : Chunk → Chunk) : ∀ ps : List Property,
    Property.allInside (Property.mapAll p q ps) = (Property.allInside ps).map (Node.map p q)
  | [] => by rw [Property.mapAll, Property.allInside, List.map_nil]
  | .entry key value :: ps => by
    simp [Property.mapAll, Property.allInside, Node.descendants_map p q key, Node.descendants_map p q value,
      Property.allInside_map p q ps]
  | .spread _ :: ps => by simp [Property.mapAll, Property.allInside, Property.allInside_map p q ps]

theorem AttributePart.allInside_map (p : Span → Span) (q : Chunk → Chunk) : ∀ ps : List AttributePart,
    AttributePart.allInside (AttributePart.mapAll p q ps) =
      (AttributePart.allInside ps).map (Node.map p q)
  | [] => by rw [AttributePart.mapAll, AttributePart.allInside, List.map_nil]
  | .text _ :: ps => by
    simp [AttributePart.mapAll, AttributePart.allInside, AttributePart.allInside_map p q ps]
  | .mustache _ expression :: ps => by
    simp [AttributePart.mapAll, AttributePart.allInside, Node.descendants_map p q expression,
      AttributePart.allInside_map p q ps]

end

theorem Node.inside_map (p : Span → Span) (q : Chunk → Chunk) (n : Node) : (n.map p q).inside = n.inside.map (Node.map p q) := by
  rw [inside, inside, descendants_map, List.map_cons]

end ClassSort
