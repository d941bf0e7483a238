import ClassSort.Edit
import ClassSort.Node
import ClassSort.Text.Blank

/-!
# Classes and expressions in two groups

A quoted class attribute that mixes plain classes with expressions in braces keeps all classes on
one side and all expressions on the other. Whatever the attribute begins with goes first.
-/

namespace ClassSort.Grouping

def rule : String := "no-literal-mustache-mix"

def message : String := "do not mix literal classes with mustache expressions"

/-- The texts of the parts, if every part can be read. -/
def partTexts (source : String) : List AttributePart → Option (List (Bool × String))
  | [] => some []
  | part :: rest => do
    let text ← slice? source part.span
    let isText := match part with
      | .text _ => true
      | .mustache _ _ => false
    some ((isText, text) :: (← partTexts source rest))

def grouped (parts : List (Bool × String)) : String :=
  let texts := (parts.filter (·.1)).map (trim ·.2)
  let literals := " ".intercalate (texts.filter (· != ""))
  let mustaches := " ".intercalate ((parts.filter (!·.1)).map (·.2))
  let mustachesFirst := parts.head?.any (!·.1)
  trim (if mustachesFirst then mustaches ++ " " ++ literals else literals ++ " " ++ mustaches)

def check (source : String) : Node → Option Violation
  | .classAttribute span true parts => do
    if parts.length < 2 || span.size < 2 then none
    else
      let current ← slice? source span.inner
      let result := grouped (← partTexts source parts)
      if result = current then none else some ⟨rule, span.inner, result, message⟩
  | _ => none

end ClassSort.Grouping
