import ClassSort.Edit

/-!
# Style blocks that use `@apply`

The at-rule `@apply` is no CSS: a style block that uses it must be marked `lang="postcss"`. The
rule is looked for outside comments and strings.
-/

namespace ClassSort

structure LangAttribute where
  /-- From the name to the end of the value. -/
  span : Span
  /-- The value without quotes; a bare `lang` has none. -/
  value : Option Span
  deriving DecidableEq, Repr

structure StyleBlock where
  /-- Where the `>` of the start tag stands. -/
  tagEnd : Nat
  lang : Option LangAttribute
  body : Span
  deriving DecidableEq, Repr

namespace StyleLang

def rule : String := "at-apply-require-postcss"

def message : String := "using '@apply' requires setting style lang to postcss"

def fix : String := "lang=\"postcss\""

def continuesName (c : Char) : Bool := c.isAlphanum || c == '-' || c == '_'

/-- What a scan of a style sheet is inside of. -/
inductive Place where
  | rules
  | comment
  | string (quote : Char)

def usesApplyFrom : Place → List Char → Bool
  | .rules, '/' :: '*' :: cs => usesApplyFrom .comment cs
  | .comment, '*' :: '/' :: cs => usesApplyFrom .rules cs
  | .comment, _ :: cs => usesApplyFrom .comment cs
  | .string _, '\\' :: [] => false
  | .string quote, '\\' :: _ :: cs => usesApplyFrom (.string quote) cs
  | .string quote, c :: cs => usesApplyFrom (if c == quote then .rules else .string quote) cs
  | .rules, '@' :: 'a' :: 'p' :: 'p' :: 'l' :: 'y' :: cs =>
    if cs.head?.any continuesName then usesApplyFrom .rules cs else true
  | .rules, c :: cs =>
    usesApplyFrom (if c == '"' || c == '\'' then .string c else .rules) cs
  | _, [] => false

def usesApply (css : String) : Bool := usesApplyFrom .rules css.toList

/-- The finding for a style block that uses `@apply` without the right mark. -/
def check (source : String) (style : StyleBlock) : Option Violation := do
  let lang := (style.lang.bind (·.value)).bind (slice? source)
  if lang = some "postcss" || !usesApply (← slice? source style.body) then none
  else
    match style.lang with
    | some present => some ⟨rule, present.span, fix, message⟩
    | none => some ⟨rule, ⟨style.tagEnd, style.tagEnd⟩, " " ++ fix, message⟩

end StyleLang

end ClassSort
