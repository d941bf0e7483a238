import ClassSort.ClassList
import ClassSort.Node
import ClassSort.Options
import ClassSort.Text.Slice

/-!
# Class texts of a file

A candidate is a place of a source file that holds classes to be sorted. Collection starts at
roots (listed calls, listed tags, selected variables, class attributes) and goes down through
arrays, operators, conditionals, objects and templates. Calls and tagged templates inside are not
entered: the front end hands each of them in as a root of its own.
-/

namespace ClassSort

/-- A place with classes to be sorted. The delimiters of a template chunk belong to the replaced
range; they are kept in front of and behind the classes. -/
structure Candidate where
  range : Span
  before : String
  body : String
  after : String
  deriving DecidableEq, Repr

def splitAround (raw : List Char) : List Char → Option (List Char × List Char)
  | [] => if raw.isEmpty then some ([], []) else none
  | c :: cs =>
    if raw.isPrefixOf (c :: cs) then some ([], (c :: cs).drop raw.length)
    else (splitAround raw cs).map fun (before, after) => (c :: before, after)

/-- What stands in front of the first occurrence of `raw` in `text`, `raw` itself and what stands
behind. Delimiters have different widths, so the chunk is searched for and not counted off. -/
def splitTemplate? (text raw : String) : Option (String × String × String) :=
  if raw.isEmpty then none
  else
    (splitAround raw.toList text.toList).map fun (before, after) =>
      (String.ofList before, raw, String.ofList after)

namespace Candidate

def keep (c : Candidate) : List Candidate :=
  if hasPlaceholder c.body || !(ClassList.parse c.body).isSortable then [] else [c]

def ofText (source : String) (range : Span) : List Candidate :=
  match slice? source range with
  | some body => keep ⟨range, "", body, ""⟩
  | none => []

def ofChunk (source : String) (chunk : Chunk) : List Candidate :=
  match (slice? source chunk.span).bind (splitTemplate? · chunk.raw) with
  | some (before, body, after) => keep ⟨chunk.span, before, body, after⟩
  | none => []

def ofLiteral (source : String) (span : Span) : List Candidate :=
  if 2 ≤ span.size then ofText source span.inner else []

def ignores (source : String) (options : SortOptions) : Node → Bool
  | .identifier _ name => options.ignoredKeys.contains name
  | .literal span =>
    2 ≤ span.size && (slice? source span.inner).any options.ignoredKeys.contains
  | _ => false

mutual
def visit (source : String) (options : SortOptions) : Node → List Candidate
  | .array _ elements => visitAll source options elements
  | .binary _ left right => visit source options left ++ visit source options right
  | .logical _ _ right => visit source options right
  | .conditional _ _ consequent alternate =>
    visit source options consequent ++ visit source options alternate
  | .literal span => ofLiteral source span
  | .object _ properties => visitProperties source options properties
  | .template _ chunks expressions =>
    visitAll source options expressions ++ chunks.flatMap (ofChunk source)
  | .declarator _ (some name) (some init) =>
    if options.declarations.selects name then visit source options init else []
  | _ => []

def visitAll (source : String) (options : SortOptions) : List Node → List Candidate
  | [] => []
  | node :: rest => visit source options node ++ visitAll source options rest

def visitProperties (source : String) (options : SortOptions) : List Property → List Candidate
  | [] => []
  | .entry key value :: rest =>
    (if ignores source options key then []
      else visit source options key ++ visit source options value) ++
      visitProperties source options rest
  | .spread _ :: rest => visitProperties source options rest
end

def ofCall (source : String) (options : SortOptions) (callee : Callee) (arguments : List Node) :
    List Candidate :=
  if callee.name?.any options.callees.contains then visitAll source options arguments else []

def ofPart (source : String) (options : SortOptions) : AttributePart → List Candidate
  | .text span => ofText source span
  | .mustache _ (.call _ callee arguments) => ofCall source options callee arguments
  | .mustache _ expression => visit source options expression

def ofRoot (source : String) (options : SortOptions) : Node → List Candidate
  | .call _ callee arguments => ofCall source options callee arguments
  | .tagged _ tag template =>
    if tag.name?.any options.tags.contains then visit source options template else []
  | .declarator span name init => visit source options (.declarator span name init)
  | .classAttribute _ _ parts => parts.flatMap (ofPart source options)
  | _ => []

/-- The class texts of a file, in the order of its roots. -/
def collect (source : String) (options : SortOptions) (roots : List Node) : List Candidate :=
  roots.flatMap (ofRoot source options)

end Candidate

end ClassSort
