import ClassSort.Node
import ClassSort.Script.Tree
import ClassSort.Text.Slice

/-!
# Roots of a script

Collection of class texts starts at every call, every tagged template and every declared variable
of a script, at whatever depth. Each becomes a root of its own, in the order of the text, an outer
one before those inside it. A script may be a part of a file: `offset` is where it begins there.

What could not be parsed is searched for roots like everything else, but a root is lowered as if it
were not there.
-/

namespace ClassSort.Script

namespace Form

def isRoot : Form → Bool
  | call | declarator _ => true
  | _ => false

def keeps : Form → Form → Bool
  | _, broken => false
  | string, _ => false
  | template, inner => inner == substitution
  | _, _ => true

end Form

namespace Tree

mutual

def plain : Tree → Tree
  | node form s children => node form s (plainAll form children)

def plainAll (form : Form) : List Tree → List Tree
  | [] => []
  | t :: ts => if form.keeps t.form then t.plain :: plainAll form ts else plainAll form ts

end

end Tree

/-- The text that a tree was found in, and where that text begins in the file. -/
structure Origin where
  text : List Char
  offset : Nat

namespace Origin

def place (o : Origin) (s : Span) : Span := s.shift o.offset

/-- The text of a range; nothing where the range does not fit. -/
def read (o : Origin) (s : Span) : String := String.ofList ((sliceChars? o.text s).getD [])

/-- A chunk whose text ends at `rawStop`, in front of its closing delimiter. -/
def chunk (o : Origin) (start stop rawStop : Nat) : Chunk :=
  ⟨o.place ⟨start, stop⟩, o.read ⟨start + 1, rawStop⟩⟩

end Origin

/-- The chunks of a template from `start` to `stop` around its substitutions. Each begins at the
delimiter in front of it, one byte wide, and ends behind the one that follows. -/
def chunks (o : Origin) (stop : Nat) : Nat → List Tree → List Chunk
  | start, [] => [o.chunk start stop (stop - 1)]
  | start, t :: ts =>
    o.chunk start (t.span.start + 2) t.span.start :: chunks o stop (t.span.stop - 1) ts

def callee (o : Origin) : Tree → Callee
  | .node .identifier s _ => .name (o.read s)
  | .node .member _ [.node .identifier object _, .node .propertyName property _] =>
    .member (o.read object) (o.read property)
  | _ => .other

mutual

def expression (o : Origin) : Tree → Node
  | .node .grouping _ (inner :: _) => expression o inner
  | .node .string s _ => .literal (o.place s)
  | .node .identifier s _ => .identifier (o.place s) (o.read s)
  | .node .array s elements => .array (o.place s) (expressions o elements)
  | .node .binary s [left, right] => .binary (o.place s) (expression o left) (expression o right)
  | .node .logical s [left, right] => .logical (o.place s) (expression o left) (expression o right)
  | .node .conditional s [test, consequent, alternate] =>
    .conditional (o.place s) (expression o test) (expression o consequent) (expression o alternate)
  | .node .object s members => .object (o.place s) (properties o members)
  | .node .template s inside =>
    .template (o.place s) (chunks o s.stop s.start inside) (substitutions o inside)
  | .node .call s (called :: rest) => invocation o s (callee o called) rest
  | .node (.declarator initialized) s (name :: rest) =>
    let named := match name with
      | .node .identifier n _ => some (o.read n)
      | _ => none
    .declarator (o.place s) named (if initialized then lastExpression o rest else none)
  | .node _ s _ => .other (o.place s)

def expressions (o : Origin) : List Tree → List Node
  | [] => []
  | t :: ts => expression o t :: expressions o ts

def lastExpression (o : Origin) : List Tree → Option Node
  | [] => none
  | [t] => some (expression o t)
  | _ :: ts => lastExpression o ts

def invocation (o : Origin) (s : Span) (called : Callee) : List Tree → Node
  | [] => .other (o.place s)
  | [.node .template t inside] =>
    .tagged (o.place s) called
      (.template (o.place t) (chunks o t.stop t.start inside) (substitutions o inside))
  | [.node _ _ arguments] => .call (o.place s) called (expressions o arguments)
  | _ :: ts => invocation o s called ts

def substitutions (o : Origin) : List Tree → List Node
  | [] => []
  | .node _ _ (inner :: _) :: ts => expression o inner :: substitutions o ts
  | .node _ s [] :: ts => .other (o.place s) :: substitutions o ts

def properties (o : Origin) : List Tree → List Property
  | [] => []
  | .node .pair _ [name, value] :: ts => .entry (key o name) (expression o value) :: properties o ts
  | .node .shorthand s _ :: ts =>
    let name := Node.identifier (o.place s) (o.read s)
    .entry name name :: properties o ts
  | .node .method s (name :: _) :: ts => .entry (key o name) (.other (o.place s)) :: properties o ts
  | .node .spread s _ :: ts => .spread (o.place s) :: properties o ts
  | _ :: ts => properties o ts

def key (o : Origin) : Tree → Node
  | .node .propertyName s _ => .identifier (o.place s) (o.read s)
  | .node .string s _ => .literal (o.place s)
  | .node .computed _ (inner :: _) => expression o inner
  | .node _ s _ => .other (o.place s)

end

mutual

def treeRoots (o : Origin) : Tree → List Node
  | .node form s children =>
    (if form.isRoot then [expression o (.node form s (Tree.plainAll form children))] else []) ++
      forestRoots o children

def forestRoots (o : Origin) : List Tree → List Node
  | [] => []
  | t :: ts => treeRoots o t ++ forestRoots o ts

end

def soleExpression (o : Origin) (trees : List Tree) : Option Node :=
  match Tree.plainAll .other trees with
  | .node .expressionStatement _ (e :: _) :: _ => some (expression o e)
  | _ => none

end ClassSort.Script
