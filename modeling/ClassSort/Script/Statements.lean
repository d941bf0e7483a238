import ClassSort.Script.Expressions
import ClassSort.Script.Types

/-!
# Statements

Declarations and everything else that a script is a row of. The names of types, modules and their
parts are read past; what stays are the expressions, and the variables that are declared.
-/

namespace ClassSort.Script.Grammar

open Reader

variable (g : Grammar)

def seesDeclaration : Reader Bool := do
  if (← seesKeyword "var") || (← seesKeyword "const") then return true
  else
    ahead do
      keyword "let"
      check ((← sees "[") || (← sees "\x7b") || !(nameAt (← rest)).isEmpty)

def declarator : Reader Tree := do
  let start ← mark
  let name ← g.one .binding
  let _ ← g.typed (do sign "!"; return [])
  let types ← g.annotation
  let value ← g.fallback
  node (.declarator !value.isEmpty) start (name :: types ++ value)

def declarators : Reader (List Tree) := do
  check (← seesDeclaration)
  let _ ← word
  g.listed g.declarator

def condition : Reader (List Tree) := do
  sign "("
  let e ← g.parse .expression
  sign ")"
  return e

def body : Reader (List Tree) := g.parse .statement

/-- What a loop over members runs through, in front of `in` or `of`. -/
def eachHead : Reader (List Tree) := do
  let left ← (do
    check (← seesDeclaration)
    let _ ← word
    g.parse .binding) <|> (do return [← g.withSuffixes (← g.primary)])
  keyword "in" <|> keyword "of"
  let right ← g.parse .expression
  sign ")"
  return left ++ right

def countHead : Reader (List Tree) := do
  let first ← g.declarators <|> g.parse .expression <|> pure []
  sign ";"
  let second ← g.parse .expression <|> pure []
  sign ";"
  let third ← g.parse .expression <|> pure []
  sign ")"
  return first ++ second ++ third

def forStatement : Reader (List Tree) := do
  keyword "for"
  let _ ← taken (keyword "await")
  sign "("
  let head ← g.eachHead <|> g.countHead
  return head ++ (← g.body)

def ifStatement : Reader (List Tree) := do
  keyword "if"
  let test ← g.condition
  let consequent ← g.body
  let alternate ← (do keyword "else"; g.body) <|> pure []
  return test ++ consequent ++ alternate

def whileStatement : Reader (List Tree) := do
  keyword "while" <|> keyword "with"
  let test ← g.condition
  return test ++ (← g.body)

def doStatement : Reader (List Tree) := do
  keyword "do"
  let inside ← g.body
  keyword "while"
  let test ← g.condition
  let _ ← taken (sign ";")
  return inside ++ test

def switchStatement : Reader (List Tree) := do
  keyword "switch"
  let value ← g.condition
  sign "\x7b"
  let cases ← g.repeated do
    let label ← (do keyword "case"; g.parse .expression) <|> (do keyword "default"; return [])
    sign ":"
    let statements ← g.repeated g.body
    return label ++ statements.flatten
  sign "\x7d"
  return value ++ cases.flatten

def tryStatement : Reader (List Tree) := do
  keyword "try"
  let tried ← g.block
  let caught ← (do
    keyword "catch"
    let name ← (do
      sign "("
      let name ← g.parse .binding
      let types ← g.annotation
      sign ")"
      return name ++ types) <|> pure []
    return name ++ (← g.block)) <|> pure []
  let finished ← (do keyword "finally"; g.block) <|> pure []
  return tried ++ caught ++ finished

/-- A statement of one word and perhaps an expression on the same line. -/
def jump : Reader (List Tree) := do
  check (["return", "throw", "break", "continue", "debugger"].contains (← word))
  let value ← if ← newline then pure [] else g.parse .expression <|> pure []
  semicolon
  return value

def labelled : Reader (List Tree) := do
  let _ ← plainName
  sign ":"
  g.body

/-- A function that is only declared has no body. -/
def functionStatement : Reader (List Tree) := do
  let _ ← taken (do
    keyword "async"
    check !(← newline))
  keyword "function"
  let _ ← taken (sign "*")
  let _ ← taken (do let _ ← plainName)
  let signature ← g.signature
  if ← sees "\x7b" then return signature ++ (← g.block)
  else
    check g.dialect.hasTypes
    semicolon
    return signature

def classStatement : Reader (List Tree) := do
  let start ← mark
  let decorators ← g.repeated g.decorator
  let _ ← taken (do
    check g.dialect.hasTypes
    keyword "abstract")
  return [← g.classTail start decorators]

def enumStatement : Reader (List Tree) := do
  check g.dialect.hasTypes
  let _ ← taken (keyword "const")
  keyword "enum"
  let _ ← word
  sign "\x7b"
  let members ← g.listed do
    let name ← g.propertyName
    return name :: (← g.fallback)
  sign "\x7d"
  return members.flatten

/-- A name that begins on the line of the word in front of it. -/
def sameLineName : Reader Unit := do
  check !(← newline)
  let _ ← plainName

def typeStatement : Reader (List Tree) := do
  check g.dialect.hasTypes
  keyword "type"
  sameLineName
  let parameters ← g.typed g.typeParameters
  sign "="
  let t ← g.parse .type
  semicolon
  return parameters ++ t

def interfaceStatement : Reader (List Tree) := do
  check g.dialect.hasTypes
  keyword "interface"
  sameLineName
  let parameters ← g.typed g.typeParameters
  let parents ← (do
    keyword "extends"
    return (← g.listed (g.parse .type)).flatten) <|> pure []
  return parameters ++ parents ++ (← g.objectType)

def namespaceStatement : Reader (List Tree) := do
  check g.dialect.hasTypes
  keyword "namespace" <|> keyword "module"
  check !(← newline)
  (do let _ ← string) <|> (do
    let _ ← plainName
    g.qualifiedNames)
  g.block <|> (do
    semicolon
    return [])

def ambientStatement : Reader (List Tree) := do
  check g.dialect.hasTypes
  keyword "declare"
  check !(← newline)
  (do
    keyword "global"
    g.block) <|> (do
    check (!(nameAt (← rest)).isEmpty || (← sees "@"))
    g.parse .statement)

def importAttributes : Reader (List Tree) := do
  keyword "with" <|> keyword "assert"
  return [← g.object]

/-- Names in braces that are imported or exported, some under other names. -/
def nameList : Reader Unit := do
  sign "\x7b"
  let _ ← g.repeated (sign "," <|> (do let _ ← word) <|> (do let _ ← string))
  sign "\x7d"

def importStatement : Reader (List Tree) := do
  keyword "import"
  let _ ← g.repeated (g.nameList <|> sign "," <|> sign "*" <|> (do let _ ← word))
  if ← taken (sign "=") then
    (do
      keyword "require"
      sign "("
      let _ ← string
      sign ")") <|> (do
      let _ ← word
      g.qualifiedNames)
    semicolon
    return []
  else
    let _ ← string
    let attributes ← g.importAttributes <|> pure []
    semicolon
    return attributes

def exportedNames : Reader (List Tree) := do
  let _ ← taken (keyword "type")
  (do
    sign "*"
    let _ ← taken (do
      keyword "as"
      (do let _ ← string) <|> (do let _ ← word))) <|> g.nameList
  let attributes ← (do
    keyword "from"
    let _ ← string
    g.importAttributes <|> pure []) <|> pure []
  semicolon
  return attributes

def exportedDefault : Reader (List Tree) := do
  keyword "default"
  g.functionStatement <|> g.classStatement <|> g.interfaceStatement <|> (do
    let e ← g.assignment
    semicolon
    return [e])

def exportStatement : Reader (List Tree) := do
  let decorators ← g.repeated g.decorator
  keyword "export"
  let exported ← g.exportedDefault <|> g.exportedNames <|> (do
    sign "="
    let e ← g.parse .expression
    semicolon
    return e) <|> (do
    keyword "as"
    keyword "namespace"
    let _ ← word
    semicolon
    return []) <|> g.parse .statement
  return decorators ++ exported

def declaration : Reader (List Tree) := do
  let declared ← g.declarators
  semicolon
  return declared

/-- Whether a word in front of an expression could also begin an import. -/
def importsValue : Reader Bool :=
  ahead do
    keyword "import"
    sign "(" <|> sign "."

def wordStatement (first : String) : Reader (List Tree) :=
  match first with
  | "for" => g.forStatement
  | "if" => g.ifStatement
  | "while" | "with" => g.whileStatement
  | "do" => g.doStatement
  | "switch" => g.switchStatement
  | "try" => g.tryStatement
  | "return" | "throw" | "break" | "continue" | "debugger" => g.jump
  | "function" | "async" => g.functionStatement
  | "class" | "abstract" => g.classStatement
  | "var" | "let" => g.declaration
  | "const" => g.enumStatement <|> g.declaration
  | "enum" => g.enumStatement
  | "import" => do
    check !(← importsValue)
    g.importStatement
  | "export" => g.exportStatement
  | "type" => g.typeStatement
  | "interface" => g.interfaceStatement
  | "namespace" | "module" => g.namespaceStatement
  | "declare" => g.ambientStatement
  | _ => failure

/-- Words that begin a statement and never an expression. -/
def statementWords : List String :=
  ["for", "if", "while", "with", "do", "switch", "try", "return", "throw", "break", "continue", "debugger",
    "function", "class", "var", "const", "enum", "export"]

def expressionStatement : Reader (List Tree) := do
  let start ← mark
  let e ← g.parse .expression
  semicolon
  return [← node .expressionStatement start e]

/-- A comment that marks a script in a document, up to the end of the line. -/
def documentComment : Reader Unit := do
  check ((← sees "<!--") || (← sees "-->"))
  bare ((← rest).takeWhile (!isLineEnd ·)).length
  settle

def statementRule : Reader (List Tree) := do
  let _ ← g.repeated documentComment
  match ← next? with
  | some ';' => do
    token 1
    return []
  | some '\x7b' => g.block
  | some '@' => do
    let start ← mark
    let trees ← g.exportStatement <|> g.classStatement
    return [← node .other start trees]
  | some _ =>
    let start ← mark
    let first := String.ofList (nameAt (← rest))
    let statement : Reader (List Tree) := do
      let trees ← g.wordStatement first
      return [← node .other start trees]
    if statementWords.contains first then statement
    else statement <|> g.labelled <|> g.expressionStatement
  | none => failure

end ClassSort.Script.Grammar
