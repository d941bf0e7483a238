import ClassSort.Markup.Scan
import ClassSort.Script.Parser
import ClassSort.Script.Roots
import ClassSort.Source.Kind

/-!
# Roots of a file

Where class texts are looked for. A script has the roots of its syntax. A document has those of all
its scripts, then its class attributes; the expressions in them are written in the language of the
scripts.
-/

namespace ClassSort

open Script (Dialect)

namespace Source

/-- The language of a document: with types if one of its scripts has them. -/
def documentDialect (found : List Markup.Finding) : Dialect :=
  let isTyped : Markup.Finding → Bool
    | .script _ .typeScript => true
    | _ => false
  if found.any isTyped then .typeScript else .javaScript

def styleBlocks (source : String) (kind : FileKind) : List StyleBlock :=
  if kind.isMarkup then
    (Markup.scan source kind.hasBraces).filterMap fun
      | .style block => some block
      | _ => none
  else []

end Source

namespace SourceParser

def scriptRoots (text : List Char) (offset : Nat) (dialect : Dialect) : Parsing (List Node) := do
  return Script.forestRoots ⟨text, offset⟩ (← parse dialect text)

/-- An expression that begins at `start`. It is read between parentheses, so that it cannot be taken
for a statement. -/
def braceExpression? (text : List Char) (start : Nat) (dialect : Dialect) : Parsing (Option Node) := do
  let wrapped := '(' :: text ++ [')']
  return Script.soleExpression ⟨wrapped, start - 1⟩ (← parse dialect wrapped)

def part (source : List Char) (dialect : Dialect) : Markup.Part → Parsing AttributePart
  | .text span => return .text span
  | .braces span => do
    let text := (sliceChars? source span.inner).getD []
    let expression ← braceExpression? text span.inner.start dialect
    return .mustache span (expression.getD (.other span.inner))

def embeddedRoots (source : List Char) : Markup.Finding → Parsing (List Node)
  | .script content d =>
    match sliceChars? source content with
    | some text => scriptRoots text content.start d
    | none => return []
  | _ => return []

def attribute? (source : List Char) (dialect : Dialect) : Markup.Finding → Parsing (Option Node)
  | .classes v => do return some (.classAttribute v.span v.isQuoted (← v.parts.mapM (part source dialect)))
  | _ => return none

def documentRoots (source : List Char) (found : List Markup.Finding) : Parsing (List Node) := do
  let scripts ← found.mapM (embeddedRoots source)
  let attributes ← found.mapM (attribute? source (Source.documentDialect found))
  return scripts.flatten ++ attributes.filterMap id

def rootsOf (source : String) (kind : FileKind) : Parsing (List Node) :=
  match kind.dialect? with
  | some dialect => scriptRoots source.toList 0 dialect
  | none => documentRoots source.toList (Markup.scan source kind.hasBraces)

def roots (source : String) (kind : FileKind) (p : SourceParser) :
    Except SyntaxError (List Node) × SourceParser :=
  (rootsOf source kind).run p

end SourceParser

end ClassSort
