import ClassSort.Script.Cursor

/-!
# The grammar and its goals

The grammar is split by subject: types, parameters, elements, expressions, statements. Where one
part needs another it asks for a goal, and `Grammar.parse` answers, down to a depth that is fixed
beforehand. The answer is a forest, since of many phrases only some parts are trees.
-/

namespace ClassSort.Script

inductive Goal where
  | statement
  /-- One expression, or several with commas between them. -/
  | expression
  /-- One expression; a function without a name may give its result a type or not. -/
  | assignment (resultTypes : Bool)
  | unary
  | element
  | type
  | binding
  | parameters
  deriving DecidableEq, Repr

structure Grammar where
  dialect : Dialect
  /-- Bounds every repetition; it exceeds the number of characters that are left. -/
  fuel : Nat
  parse : Goal → Reader (List Tree)

namespace Grammar

open Reader

variable (g : Grammar) {α : Type}

def one (goal : Goal) : Reader Tree := do
  match ← g.parse goal with
  | [t] => return t
  | _ => failure

def assignment : Reader Tree := g.one (.assignment true)

def repeated (p : Reader α) : Reader (List α) := many g.fuel p

/-- Any number of things with commas between them and perhaps one behind the last. -/
def listed (p : Reader α) : Reader (List α) := do
  match ← attempt p with
  | none => return []
  | some first =>
    let others ← g.repeated (do sign ","; p)
    let _ ← taken (sign ",")
    return first :: others

def typed (p : Reader (List Tree)) : Reader (List Tree) :=
  if g.dialect.hasTypes then p <|> pure [] else pure []

def annotation : Reader (List Tree) := g.typed (do sign ":"; g.parse .type)

def typeArguments : Reader (List Tree) := do
  sign "<"
  let types ← g.listed (g.parse .type)
  sign ">"
  return types.flatten

/-- Names of types, with what they extend and what they stand for otherwise. -/
def typeParameters : Reader (List Tree) := do
  sign "<"
  let parameters ← g.listed do
    let _ ← g.repeated do
      check ((← seesKeyword "const") || (← seesKeyword "in") || (← seesKeyword "out"))
      let _ ← word
      check !(nameAt (← rest)).isEmpty
    let _ ← plainName
    let bound ← (do keyword "extends"; g.parse .type) <|> pure []
    let otherwise ← (do sign "="; g.parse .type) <|> pure []
    return bound ++ otherwise
  sign ">"
  return parameters.flatten

def listItem : Reader Tree := do
  let start ← mark
  if ← sees "..." then
    token 3
    node .spread start [← g.assignment]
  else g.assignment

/-- The expressions that something is called with. -/
def arguments : Reader Tree := do
  let start ← mark
  sign "("
  let given ← g.listed g.listItem
  sign ")"
  node .arguments start given

def array : Reader Tree := do
  let start ← mark
  sign "["
  let groups ← g.repeated ((do sign ","; return []) <|> (do
    let e ← g.listItem
    check ((← sees ",") || (← sees "]"))
    return [e]))
  sign "]"
  node .array start groups.flatten

def substitution (inside : Reader (List Tree)) : Reader Tree := do
  let (n, final) ← (chunkLength (← rest) : Option (Nat × Bool))
  check !final
  bare n
  let start ← mark
  token 2
  let trees ← inside
  bareSign "\x7d"
  node .substitution start trees

/-- A template; `inside` reads what stands in its substitutions. -/
def template (inside : Reader (List Tree)) : Reader Tree := do
  let start ← mark
  bareSign "`"
  let substitutions ← g.repeated (substitution inside)
  let (n, final) ← (chunkLength (← rest) : Option (Nat × Bool))
  check final
  token (n + 1)
  node .template start substitutions

def propertyName : Reader Tree := do
  let start ← mark
  match ← next? with
  | some '[' =>
    token 1
    let e ← g.assignment
    sign "]"
    node .computed start [e]
  | some '#' => privateName
  | some c =>
    if c == '"' || c == '\'' then string
    else if isDigit c || c == '.' then number
    else
      let _ ← word
      node .propertyName start []
  | none => failure

def block : Reader (List Tree) := do
  sign "\x7b"
  let statements ← g.repeated (g.parse .statement)
  sign "\x7d"
  return statements.flatten

def decorator : Reader Tree := do
  sign "@"
  if ← sees "(" then
    token 1
    let e ← g.one .expression
    sign ")"
    return e
  else
    let start ← mark
    let first ← identifier
    let names ← g.repeated do
      sign "."
      let start ← mark
      let _ ← word
      node .propertyName start []
    let called := names.foldl
      (fun object name => .node .member ⟨start, name.span.stop⟩ [object, name]) first
    let types ← g.typed g.typeArguments
    if ← sees "(" then node .call start ([called] ++ types ++ [← g.arguments])
    else return called

end Grammar

end ClassSort.Script
