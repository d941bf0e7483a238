import ClassSort.Script.Grammar

/-!
# Elements

Markup inside an expression. Its texts hold no classes for this library; what counts are the
expressions in braces, as attributes and between the tags.
-/

namespace ClassSort.Script.Grammar

open Reader

variable (g : Grammar)

def tagName : Reader Unit := do
  let cs ← rest
  let name := cs.takeWhile fun c => isNamePart c || c == '-' || c == '.' || c == ':'
  check (!name.isEmpty)
  token name.length

def attributeText : Reader Unit := do
  match ← rest with
  | c :: cs =>
    check (c == '"' || c == '\'')
    let inside := cs.takeWhile (· != c)
    check (inside.length < cs.length)
    token (inside.length + 2)
  | [] => failure

def embedded : Reader (List Tree) := do
  if ← sees "\x7d" then return []
  let start ← mark
  if ← sees "..." then
    token 3
    return [← node .spread start (← g.parse .expression)]
  else g.parse .expression

def tagAttribute : Reader (List Tree) := do
  if ← sees "\x7b" then
    token 1
    let e ← g.embedded
    sign "\x7d"
    return e
  else
    tagName
    if ← taken (sign "=") then
      match ← next? with
      | some '\x7b' =>
        token 1
        let e ← g.embedded
        sign "\x7d"
        return e
      | some '<' => do
        let e ← g.parse .element
        settle
        return e
      | _ => do
        attributeText
        return []
    else return []

/-- What stands between two tags: texts, expressions in braces and elements. -/
def content : Reader (List Tree) := do
  let pieces ← g.repeated do
    match ← rest with
    | '\x7b' :: _ => do
      token 1
      let e ← g.embedded
      bareSign "\x7d"
      return e
    | '<' :: _ => do
      check !(← sees "</")
      g.parse .element
    | cs => do
      let text := cs.takeWhile fun c => c != '\x7b' && c != '<'
      check (!text.isEmpty)
      bare text.length
      return []
  return pieces.flatten

def closingTag : Reader Unit := do
  sign "<"
  sign "/"
  let _ ← taken tagName
  bareSign ">"

def element : Reader Tree := do
  let start ← mark
  sign "<"
  if ← sees ">" then
    bare 1
    let inside ← g.content
    closingTag
    node .other start inside
  else
    tagName
    let types ← g.typed g.typeArguments
    let attributes ← g.repeated g.tagAttribute
    if ← taken (sign "/") then
      bareSign ">"
      node .other start (types ++ attributes.flatten)
    else
      bareSign ">"
      let inside ← g.content
      closingTag
      node .other start (types ++ attributes.flatten ++ inside)

end ClassSort.Script.Grammar
