import ClassSort.Text.Span

/-!
# Syntax nodes

The forms of a source file that can hold class texts, whatever language the file is written in.
A front end turns what it parsed into these nodes; everything that no class text is looked for in
is `other`. Ranges refer to the text of the whole file.
-/

namespace ClassSort

/-- The called expression of a call, or the tag of a template. -/
inductive Callee where
  | name (name : String)
  /-- Two plain names with a point between them. -/
  | member (object property : String)
  | other
  deriving DecidableEq, Repr

def Callee.name? : Callee → Option String
  | name n => some n
  | member object property => some (object ++ "." ++ property)
  | other => none

/-- A static chunk of a template. The range includes the delimiters on both sides, `raw` is the
text between them. -/
structure Chunk where
  span : Span
  raw : String
  deriving DecidableEq, Repr

mutual
inductive Node where
  /-- A string literal; the range includes the quotes. -/
  | literal (span : Span)
  | identifier (span : Span) (name : String)
  | array (span : Span) (elements : List Node)
  /-- Any binary operator but the three logical ones. -/
  | binary (span : Span) (left right : Node)
  | logical (span : Span) (left right : Node)
  | conditional (span : Span) (test consequent alternate : Node)
  | object (span : Span) (properties : List Property)
  /-- One chunk more than expressions. -/
  | template (span : Span) (chunks : List Chunk) (expressions : List Node)
  | tagged (span : Span) (tag : Callee) (template : Node)
  | call (span : Span) (callee : Callee) (arguments : List Node)
  /-- A declared variable; destructuring patterns have no name. -/
  | declarator (span : Span) (name : Option String) (init : Option Node)
  /-- The value of a class attribute, quotes included. -/
  | classAttribute (span : Span) (isQuoted : Bool) (parts : List AttributePart)
  | other (span : Span)

inductive Property where
  | entry (key value : Node)
  | spread (span : Span)

inductive AttributePart where
  | text (span : Span)
  /-- An expression in braces; the range includes them. -/
  | mustache (span : Span) (expression : Node)
end

namespace Node

def span : Node → Span
  | literal s | identifier s _ | array s _ | binary s _ _ | logical s _ _ | conditional s _ _ _
  | object s _ | template s _ _ | tagged s _ _ | call s _ _ | declarator s _ _
  | classAttribute s _ _ | other s => s

end Node

def AttributePart.span : AttributePart → Span
  | text s | mustache s _ => s

end ClassSort
