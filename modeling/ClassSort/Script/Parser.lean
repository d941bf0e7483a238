import ClassSort.Script.Tree

/-!
# The parser

Scripts are parsed by the grammars of a library, one for each language. A parser holds one grammar
at a time. The next one is loaded when the language changes, which may be refused; whatever is
parsed goes by the grammar that is held.
-/

namespace ClassSort

open Script (Dialect Tree)

namespace Script

/-- The library: which grammars it refuses to load, and the trees of a text by each of them, if it
does not give up on the text. -/
structure Grammars where
  refusal : Dialect → Option String
  trees? : Dialect → List Char → Option (List Tree)

end Script

inductive SyntaxError where
  | grammar (dialect : Dialect) (cause : String)
  | unparsed (dialect : Dialect)
  deriving DecidableEq, Repr

def SyntaxError.message : SyntaxError → String
  | grammar dialect cause => s!"failed to load the {dialect.name} grammar: {cause}"
  | unparsed dialect => s!"{dialect.name} parser produced no tree"

structure SourceParser where
  grammars : Script.Grammars
  /-- The grammar that the library holds. -/
  held : Option Dialect
  /-- The language that it was last asked for with success. -/
  loaded : Option Dialect

abbrev Parsing := ExceptT SyntaxError (StateM SourceParser)

namespace SourceParser

/-- A parser without a grammar. -/
def new (grammars : Script.Grammars) : SourceParser := ⟨grammars, none, none⟩

def load (dialect : Dialect) : Parsing Unit := do
  let p ← get
  if p.loaded ≠ some dialect then
    match p.grammars.refusal dialect with
    | some cause => throw (.grammar dialect cause)
    | none => set { p with held := some dialect, loaded := some dialect }

def parse (dialect : Dialect) (text : List Char) : Parsing (List Tree) := do
  load dialect
  let p ← get
  match p.held.bind (p.grammars.trees? · text) with
  | some trees => return trees
  | none => throw (.unparsed dialect)

end SourceParser

end ClassSort
