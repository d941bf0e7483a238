import ClassSort.Script.Grammar

/-!
# Names and parameters

What a declaration or a parameter gives names to: one name, or a pattern of names that takes an
object or an array apart. Patterns may hold expressions, for names that would get no value.
-/

namespace ClassSort.Script.Grammar

open Reader

variable (g : Grammar)

/-- A value for a name that would get none. -/
def fallback : Reader (List Tree) :=
  (do
    check !((← sees "==") || (← sees "=>"))
    sign "="
    g.parse (.assignment true)) <|> pure []

def objectPattern : Reader Tree := do
  let start ← mark
  sign "\x7b"
  let entries ← g.listed do
    if ← sees "..." then
      token 3
      g.parse .binding
    else
      let name ← g.propertyName
      let inside ← (do sign ":"; g.parse .binding) <|> pure []
      return name :: inside ++ (← g.fallback)
  sign "\x7d"
  node .other start entries.flatten

def arrayPattern : Reader Tree := do
  let start ← mark
  sign "["
  let entries ← g.repeated ((do sign ","; return []) <|> (do
    let _ ← taken (sign "...")
    let inside ← g.parse .binding
    let otherwise ← g.fallback
    check ((← sees ",") || (← sees "]"))
    return inside ++ otherwise))
  sign "]"
  node .other start entries.flatten

def binding : Reader Tree := do
  match ← next? with
  | some '\x7b' => g.objectPattern
  | some '[' => g.arrayPattern
  | _ => identifier

def parameter : Reader (List Tree) := do
  let decorators ← g.repeated g.decorator
  if g.dialect.hasTypes then
    let _ ← g.repeated do
      let modifiers := ["public", "private", "protected", "readonly", "override"]
      check (modifiers.contains (← word))
      check ((← sees "\x7b") || (← sees "[") || !(nameAt (← rest)).isEmpty)
  let _ ← taken (sign "...")
  let name ← (if g.dialect.hasTypes then (do keyword "this"; return []) <|> g.parse .binding
    else g.parse .binding)
  if g.dialect.hasTypes then
    let _ ← taken (sign "?")
  let types ← g.annotation
  return decorators ++ name ++ types ++ (← g.fallback)

def parameters : Reader (List Tree) := do
  sign "("
  let each ← g.listed g.parameter
  sign ")"
  return each.flatten

def signature : Reader (List Tree) := do
  let types ← g.typed g.typeParameters
  let parameters ← g.parse .parameters
  return types ++ parameters ++ (← g.annotation)

end ClassSort.Script.Grammar
