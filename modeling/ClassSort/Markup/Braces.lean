import ClassSort.Markup.Point

/-!
# Expressions in braces

An expression in braces ends at the brace that closes it. Braces in strings and in comments do not
count. One that is never closed runs to the end of the document.
-/

namespace ClassSort.Markup

/-- What a scan for the closing brace is inside of. -/
inductive Inside where
  | code
  | string (quote : Char)
  | lineComment
  | blockComment

def closeFrom : Inside → Nat → List Char → Nat → Point
  | _, _, [], n => ⟨[], n⟩
  | .string quote, depth, '\\' :: c :: cs, n => closeFrom (.string quote) depth cs (n + 1 + c.utf8Size)
  | .string quote, depth, c :: cs, n =>
    closeFrom (if c == quote then .code else .string quote) depth cs (n + c.utf8Size)
  | .lineComment, depth, c :: cs, n =>
    closeFrom (if c == '\n' then .code else .lineComment) depth cs (n + c.utf8Size)
  | .blockComment, depth, '*' :: '/' :: cs, n => closeFrom .code depth cs (n + 2)
  | .blockComment, depth, c :: cs, n => closeFrom .blockComment depth cs (n + c.utf8Size)
  | .code, depth, '/' :: '/' :: cs, n => closeFrom .lineComment depth cs (n + 2)
  | .code, depth, '/' :: '*' :: cs, n => closeFrom .blockComment depth cs (n + 2)
  | .code, depth, '\x7b' :: cs, n => closeFrom .code (depth + 1) cs (n + 1)
  | .code, depth, '\x7d' :: cs, n =>
    if depth ≤ 1 then ⟨cs, n + 1⟩ else closeFrom .code (depth - 1) cs (n + 1)
  | .code, depth, c :: cs, n =>
    let inside := if c == '"' || c == '\'' || c == '`' then Inside.string c else .code
    closeFrom inside depth cs (n + c.utf8Size)

def Point.pastBraces (p : Point) : Point := closeFrom .code 0 p.rest p.pos

example : (Point.ofText "\x7ba(\x7b'\x7d'\x7d)\x7d b").pastBraces = ⟨" b".toList, 10⟩ := by decide +kernel

end ClassSort.Markup
