import ClassSort.Files.Path
import ClassSort.Script.Tree

/-!
# Kinds of files

A file's extension tells what it is: a script in one of three languages, or a document with scripts
inside.
-/

namespace ClassSort

open Script (Dialect)

inductive FileKind where
  | javaScript
  | typeScript
  | tsx
  | svelte
  | html
  deriving DecidableEq, Repr

namespace FileKind

def ofExtension? : String → Option FileKind
  | "js" | "mjs" | "cjs" | "jsx" => some javaScript
  | "ts" | "mts" | "cts" => some typeScript
  | "tsx" => some tsx
  | "svelte" => some svelte
  | "html" => some html
  | _ => none

def ofPath? (p : Path) : Option FileKind := p.extension?.bind ofExtension?

def isMarkup : FileKind → Bool
  | svelte | html => true
  | _ => false

/-- Whether expressions in braces stand between texts and tags. -/
def hasBraces (kind : FileKind) : Bool := kind == svelte

def dialect? : FileKind → Option Dialect
  | javaScript => some .javaScript
  | typeScript => some .typeScript
  | tsx => some .tsx
  | _ => none

end FileKind

end ClassSort
