import ClassSort.Script.Grammar

/-!
# Types

Types hold no classes, but they may import a module, which is a call. Otherwise they are only read
to know where they end.
-/

namespace ClassSort.Script.Grammar

open Reader

variable (g : Grammar)

def importCall : Reader Tree := do
  let start ← mark
  keyword "import"
  let called ← node .other start []
  node .call start [called, ← g.arguments]

def qualifiedNames : Reader Unit := do
  let _ ← g.repeated do
    check !(← sees "...")
    sign "."
    let _ ← (do let _ ← privateName) <|> (do let _ ← word)

def typeQuery : Reader (List Tree) := do
  keyword "typeof"
  let first ← (do return [← g.importCall]) <|> (do let _ ← word; return [])
  g.qualifiedNames
  return first ++ (← g.typeArguments <|> pure [])

/-- A function's type; `new` stands in front of a constructor's. -/
def functionType : Reader (List Tree) := do
  let _ ← taken (do keyword "abstract"; check (← seesKeyword "new"))
  let _ ← taken (keyword "new")
  let types ← g.typeParameters <|> pure []
  let parameters ← g.parse .parameters
  sign "=>"
  return types ++ parameters ++ (← g.parse .type)

def tupleType : Reader (List Tree) := do
  sign "["
  let items ← g.listed do
    let _ ← taken (sign "...")
    let _ ← taken (do let _ ← word; let _ ← taken (sign "?"); sign ":")
    let t ← g.parse .type
    let _ ← taken (sign "?")
    return t
  sign "]"
  return items.flatten

/-- What stands in brackets in front of a member: a key, the name of one, or all keys of a type. -/
def indexKey : Reader (List Tree) := do
  sign "["
  let _ ← taken (do let _ ← word; sign ":" <|> keyword "in")
  let key ← g.parse .type
  let renamed ← (do keyword "as"; g.parse .type) <|> pure []
  sign "]"
  return key ++ renamed

def objectType : Reader (List Tree) := do
  sign "\x7b"
  let pieces ← g.repeated do
    match ← next? with
    | some '[' => g.indexKey
    | some '(' => g.parse .parameters
    | some '<' => g.typeParameters
    | some ':' =>
      token 1
      g.parse .type
    | some c =>
      if ";,?+-".toList.contains c then
        token 1
        return []
      else do
        let _ ← g.propertyName
        return []
    | none => failure
  sign "\x7d"
  return pieces.flatten

def namedType : Reader (List Tree) := do
  let _ ← word
  g.qualifiedNames
  if ← newline then return [] else g.typeArguments <|> pure []

def plainType : Reader (List Tree) := do
  match ← next? with
  | some '(' =>
    g.functionType <|> (do
      sign "("
      let t ← g.parse .type
      sign ")"
      return t)
  | some '<' => g.functionType
  | some '[' => g.tupleType
  | some '\x7b' => g.objectType
  | some '`' => do
    let t ← g.template (g.parse .type)
    return t.children.flatMap Tree.children
  | some '-' => do
    token 1
    let _ ← number
    return []
  | some c =>
    if c == '"' || c == '\'' then do
      let _ ← string
      return []
    else if isDigit c then do
      let _ ← number
      return []
    else if ← seesKeyword "typeof" then g.typeQuery
    else if ← seesKeyword "import" then do
      let call ← g.importCall
      g.qualifiedNames
      return call :: (← g.typeArguments <|> pure [])
    else if (← seesKeyword "new") || (← seesKeyword "abstract") then g.functionType <|> g.namedType
    else g.namedType
  | none => failure

def typeOperators : Reader (List String) :=
  g.repeated do
    let operator ← word
    check (["keyof", "unique", "readonly", "infer"].contains operator)
    check (!(nameAt (← rest)).isEmpty || (← sees "(") || (← sees "[") || (← sees "\x7b")
      || (← sees "\"") || (← sees "'"))
    return operator

def suffixedType : Reader (List Tree) := do
  let first ← g.plainType
  let suffixes ← g.repeated do
    check !(← newline)
    sign "["
    let inside ← g.parse .type <|> pure []
    sign "]"
    return inside
  return first ++ suffixes.flatten

def alternatives (operand : Reader (List Tree)) : Reader (List Tree) := do
  let bar : Reader Unit := do
    check !((← sees "||") || (← sees "&&"))
    sign "|" <|> sign "&"
  let _ ← taken bar
  let first ← operand
  let others ← g.repeated (do bar; operand)
  return first ++ others.flatten

/-- A type with its operators; the bound of an inferred one may follow. -/
def operandType : Reader (List Tree) := do
  let operators ← g.typeOperators
  let first ← g.suffixedType
  if operators.contains "infer" then
    let bound ← (do
      keyword "extends"
      g.alternatives (do
        let _ ← g.typeOperators
        g.suffixedType)) <|> pure []
    return first ++ bound
  else return first

def unionType : Reader (List Tree) := g.alternatives g.operandType

def predicate : Reader (List Tree) := do
  let asserts ← taken (do
    keyword "asserts"
    check (!(← newline) && !(nameAt (← rest)).isEmpty && !(← seesKeyword "is")))
  let _ ← word
  if (← seesKeyword "is") && !(← newline) then
    keyword "is"
    g.parse .type
  else
    check asserts
    return []

def type : Reader (List Tree) :=
  g.predicate <|> (do
    let first ← g.unionType
    let conditional ← (do
      check !(← newline)
      keyword "extends"
      let bound ← g.unionType
      sign "?"
      let consequent ← g.parse .type
      sign ":"
      return bound ++ consequent ++ (← g.parse .type)) <|> pure []
    return first ++ conditional)

end ClassSort.Script.Grammar
