import ClassSort.Script.Bindings
import ClassSort.Script.Elements
import ClassSort.Script.Operators

/-!
# Expressions

From names and literals up to functions, classes and assignments. A phrase in parentheses may be
the parameters of a function; it is taken for one if an arrow follows.
-/

namespace ClassSort.Script.Grammar

open Reader

variable (g : Grammar)

def seesName : Reader Bool := do
  match ← next? with
  | some c => return "\"'[#".toList.contains c || isDigit c || !(nameAt (← rest)).isEmpty
  | none => return false

/-- Words in front of an entry's name, and the star of a generator. -/
def modifiers (words : List String) : Reader Bool := do
  let found ← g.repeated (sign "*" <|> (do
    check (words.contains (← word))
    check ((← sees "*") || (← seesName))))
  return !found.isEmpty

def seesParameters : Reader Bool := do
  return (← sees "(") || (g.dialect.hasTypes && (← sees "<"))

def functionTail : Reader (List Tree) := do
  let signature ← g.signature
  return signature ++ (← g.block)

def objectMember : Reader Tree := do
  let start ← mark
  if ← sees "..." then
    token 3
    node .spread start [← g.assignment]
  else
    let modified ← g.modifiers ["async", "get", "set"]
    let name ← g.propertyName
    if ← g.seesParameters then node .method start (name :: (← g.functionTail))
    else
      check !modified
      if ← taken (sign ":") then node .pair start [name, ← g.assignment]
      else
        check (name.form == .propertyName)
        let otherwise ← g.fallback
        if otherwise.isEmpty then node .shorthand start [] else node .other start (name :: otherwise)

def object : Reader Tree := do
  let start ← mark
  sign "\x7b"
  let members ← g.listed g.objectMember
  sign "\x7d"
  node .object start members

def function : Reader Tree := do
  let start ← mark
  let _ ← taken (do
    keyword "async"
    check !(← newline))
  keyword "function"
  let _ ← taken (sign "*")
  let name ← (do return [← identifier]) <|> pure []
  node .other start (name ++ (← g.functionTail))

def memberTail : Reader (List Tree) := do
  if ← ahead (do keyword "static"; sign "\x7b") then
    keyword "static"
    g.block
  else
    let _ ← g.modifiers ["static", "async", "get", "set", "accessor", "public", "private", "protected",
      "readonly", "abstract", "override", "declare"]
    let name ← (do
      check g.dialect.hasTypes
      sign "["
      let _ ← word
      sign ":"
      let t ← g.parse .type
      sign "]"
      return t) <|> (do return [← g.propertyName])
    let _ ← taken (sign "?" <|> sign "!")
    if ← g.seesParameters then
      let signature ← g.signature
      let body ← if ← sees "\x7b" then g.block else (do
        check g.dialect.hasTypes
        semicolon
        return [])
      return name ++ signature ++ body
    else
      let types ← g.annotation
      let value ← g.fallback
      semicolon
      return name ++ types ++ value

def classMember : Reader (List Tree) := do
  if ← taken (sign ";") then return []
  let decorators ← g.repeated g.decorator
  return decorators ++ (← g.memberTail)

/-- What a class is made from: values with types, and types only behind `implements`. -/
def heritage : Reader (List Tree) := do
  let extended ← (do
    keyword "extends"
    let values ← g.listed do
      let e ← g.one .unary
      return e :: (← g.typed g.typeArguments)
    return values.flatten) <|> pure []
  let implemented ← g.typed do
    keyword "implements"
    let types ← g.listed (g.parse .type)
    return types.flatten
  return extended ++ implemented

def classTail (start : Nat) (decorators : List Tree) : Reader Tree := do
  keyword "class"
  let name ← (do
    check !(← seesKeyword "implements")
    return [← identifier]) <|> pure []
  let types ← g.typed g.typeParameters
  let parents ← g.heritage
  sign "\x7b"
  let members ← g.repeated g.classMember
  sign "\x7d"
  node .other start (decorators ++ name ++ types ++ parents ++ members.flatten)

def classExpression : Reader Tree := do
  let start ← mark
  let decorators ← g.repeated g.decorator
  g.classTail start decorators

def memberName : Reader Tree := do
  let start ← mark
  privateName <|> (do
    let _ ← word
    node .propertyName start [])

def index (start : Nat) (object : Tree) : Reader Tree := do
  sign "["
  let inside ← g.parse .expression
  sign "]"
  node .other start (object :: inside)

def memberStep (start : Nat) (object : Tree) : Reader Tree := do
  match ← next? with
  | some '.' =>
    check !(← sees "...")
    token 1
    node .member start [object, ← memberName]
  | some '[' => g.index start object
  | some '`' => node .call start [object, ← g.template (g.parse .expression)]
  | _ => failure

/-- Whether types in angle brackets can end here without being called. -/
def endsInstance : Reader Bool := do
  let cs ← rest
  match cs with
  | [] => return true
  | c :: _ => return (← newline) || ")],;:\x7d.?".toList.contains c || (← sees "==") || (← sees "!=")
      || (← sees "&&") || (← sees "||")

/-- One step from an expression to a part of it or to what it gives when it is called. -/
def suffix (start : Nat) (e : Tree) : Reader Tree := do
  if ← sees "(" then node .call start [e, ← g.arguments]
  else if (← sees "?.") && !((← rest)[2]?.any isDigit) then
    token 2
    match ← next? with
    | some '(' => node .call start [e, ← g.arguments]
    | some '[' => g.index start e
    | some '<' => do
      check g.dialect.hasTypes
      let types ← g.typeArguments
      node .call start (e :: types ++ [← g.arguments])
    | _ => node .member start [e, ← memberName]
  else if g.dialect.hasTypes && (← sees "<") then
    let types ← g.typeArguments
    if ← sees "(" then node .call start (e :: types ++ [← g.arguments])
    else
      check (← endsInstance)
      node .other start (e :: types)
  else if ((← sees "++") || (← sees "--")) && !(← newline) then
    token 2
    node .other start [e]
  else g.memberStep start e

def suffixes (step : Nat → Tree → Reader Tree) (start : Nat) : Nat → Tree → Reader Tree
  | 0, e => return e
  | fuel + 1, e => do
    match ← attempt (step start e) with
    | some e => suffixes step start fuel e
    | none => return e

def withSuffixes (e : Tree) : Reader Tree := suffixes g.suffix e.span.start g.fuel e

def constant : Reader Tree := do
  let start ← mark
  check (["this", "super", "null", "true", "false", "undefined"].contains (← word))
  node .other start []

/-- An import that is called, or the properties of the module itself. -/
def importExpression : Reader Tree := do
  let start ← mark
  keyword "import"
  let called ← node .other start []
  if ← sees "(" then node .call start [called, ← g.arguments]
  else
    sign "."
    let _ ← word
    node .other start []

def grouping : Reader Tree := do
  let start ← mark
  sign "("
  let inside ← g.parse .expression
  let types ← g.annotation
  sign ")"
  node .grouping start (inside ++ types)

def regularOrElement : Reader Tree := do
  if g.dialect.hasElements && (← sees "<") then
    let e ← g.one .element
    settle
    return e
  else pattern

def named : Reader Tree := do
  if ← seesKeyword "function" then g.function
  else if ← seesKeyword "class" then g.classExpression
  else if ← seesKeyword "import" then g.importExpression
  else if ← seesKeyword "async" then g.function <|> identifier
  else constant <|> identifier

def primary : Reader Tree := do
  match ← next? with
  | some '(' => g.grouping
  | some '[' => g.array
  | some '\x7b' => g.object
  | some '`' => g.template (g.parse .expression)
  | some '#' => privateName
  | some '@' => g.classExpression
  | some c =>
    if c == '"' || c == '\'' then string
    else if c == '/' || c == '<' then g.regularOrElement
    else if isDigit c || c == '.' then number
    else g.named
  | none => failure

def constructed : Reader Tree := do
  let start ← mark
  let e ← if ← seesKeyword "new" then g.one .unary else g.primary
  suffixes g.memberStep start g.fuel e

/-- An object that is made by what it is called with, or the name of what made it. -/
def newExpression : Reader Tree := do
  let start ← mark
  keyword "new"
  if ← taken (do sign "."; keyword "target") then node .other start []
  else
    let e ← g.constructed
    let types ← g.typed (do
      let types ← g.typeArguments
      check (← sees "(")
      return types)
    if ← sees "(" then node .other start (e :: types ++ [← g.arguments]) else node .other start [e]

/-- An operand that is waited for; assertions about it belong to it. -/
def awaited : Nat → Tree → Reader Tree
  | 0, e => return e
  | fuel + 1, e => do
    if let some types ← attempt g.assertedType then
      awaited fuel (← node .grouping e.span.start (e :: types))
    else if ← taken g.assertedValue then
      let asserted ← node .grouping e.span.start [e]
      awaited fuel (← g.withSuffixes asserted)
    else return e

def prefixSign : Reader Unit := do
  if (← sees "++") || (← sees "--") then token 2
  else
    match ← next? with
    | some c =>
      check ("!~+-".toList.contains c)
      token 1
    | none => failure

def unary : Reader Tree := do
  let start ← mark
  if ← taken prefixSign then node .other start [← g.one .unary]
  else if (← seesKeyword "typeof") || (← seesKeyword "void") || (← seesKeyword "delete") then
    let _ ← word
    node .other start [← g.one .unary]
  else if ← seesKeyword "await" then
    (do
      let _ ← word
      let e ← g.one .unary
      node .other start [← g.awaited g.fuel e]) <|> (do g.withSuffixes (← g.primary))
  else if g.dialect == .typeScript && (← sees "<") then
    let types ← g.typeArguments
    node .other start (types ++ [← g.one .unary])
  else if ← seesKeyword "new" then g.withSuffixes (← g.newExpression)
  else g.withSuffixes (← g.primary)

def arrow (resultTypes : Bool) : Reader Tree := do
  let start ← mark
  let _ ← taken (do
    keyword "async"
    check (!(← newline) && ((← g.seesParameters) || !(nameAt (← rest)).isEmpty)))
  let signature ← (do
    let name ← identifier
    check (← sees "=>")
    return [name]) <|> (do
    check (← g.seesParameters)
    let types ← g.typed g.typeParameters
    let parameters ← g.parse .parameters
    let result ← if resultTypes then g.annotation else pure []
    return types ++ parameters ++ result)
  check !(← newline)
  sign "=>"
  let body ← if ← sees "\x7b" then g.block else g.parse (.assignment resultTypes)
  node .other start (signature ++ body)

def yielded : Reader Tree := do
  let start ← mark
  keyword "yield"
  if ← newline then node .other start []
  else
    let _ ← taken (sign "*")
    match ← attempt g.assignment with
    | some e => node .other start [e]
    | none => node .other start []

def assignmentSign : Reader Unit := do
  check !((← sees "==") || (← sees "=>"))
  let signs := [">>>=", "**=", "&&=", "||=", "??=", "<<=", ">>=", "+=", "-=", "*=", "/=", "%=", "&=", "^=",
    "|=", "="]
  let cs ← rest
  match signs.find? fun s => s.toList.isPrefixOf cs with
  | some s => token s.length
  | none => failure

/-- The value in the middle of a conditional. A colon behind parentheses there may begin the type of
a function's result or end the value; if it does not end well as the one, it is the other. -/
def consequent : Reader Tree :=
  (do
    let e ← g.one (.assignment true)
    sign ":"
    return e) <|> (do
    let e ← g.one (.assignment false)
    sign ":"
    return e)

def assignmentRule (resultTypes : Bool) : Reader Tree :=
  g.arrow resultTypes <|> g.yielded <|> (do
    let first ← g.one .unary
    let e ← g.operations g.withSuffixes g.fuel [] first
    let start := e.span.start
    if ← taken assignmentSign then node .other start [e, ← g.one (.assignment resultTypes)]
    else if (← sees "?") && !(← sees "??") then
      token 1
      let consequent ← g.consequent
      node .conditional start [e, consequent, ← g.one (.assignment resultTypes)]
    else return e)

def expressionRule : Reader Tree := do
  let start ← mark
  let first ← g.assignment
  let others ← g.repeated (do sign ","; g.assignment)
  if others.isEmpty then return first else node .other start (first :: others)

end ClassSort.Script.Grammar
