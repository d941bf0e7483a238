import ClassSort.Markup.Braces

/-!
# Attributes of start tags

An attribute is a name and perhaps a value, which is quoted, an expression in braces, or a run of
characters without blanks. Only some documents have expressions in braces. Inside quotes a value is
a row of texts and expressions; no text in it is empty.
-/

namespace ClassSort.Markup

inductive Part where
  | text (span : Span)
  /-- An expression with its braces. -/
  | braces (span : Span)
  deriving DecidableEq, Repr

/-- The value of an attribute; the range includes the quotes. -/
structure Value where
  span : Span
  isQuoted : Bool
  parts : List Part
  deriving DecidableEq, Repr

structure Attribute where
  name : Span
  /-- The characters of the name. -/
  text : List Char
  value : Option Value
  deriving DecidableEq, Repr

def Value.content (v : Value) : Span :=
  if v.isQuoted && 2 ≤ v.span.size then v.span.inner else v.span

def textPart (start stop : Nat) : List Part := if start < stop then [.text ⟨start, stop⟩] else []

def quotedParts (hasBraces : Bool) (quote : Char) : Nat → Nat → Point → List Part × Point
  | 0, start, p => (textPart start p.pos, p)
  | fuel + 1, start, p =>
    match p.rest with
    | [] => (textPart start p.pos, p)
    | c :: _ =>
      if c == quote then (textPart start p.pos, p)
      else if c == '\x7b' && hasBraces then
        let after := p.pastBraces
        let (parts, stop) := quotedParts hasBraces quote fuel after.pos after
        (textPart start p.pos ++ .braces ⟨p.pos, after.pos⟩ :: parts, stop)
      else quotedParts hasBraces quote fuel start p.next

def readQuoted (hasBraces : Bool) (quote : Char) (p : Point) : Value × Point :=
  let inside := p.next
  let (parts, close) := quotedParts hasBraces quote inside.rest.length inside.pos inside
  let after := close.next
  (⟨⟨p.pos, after.pos⟩, true, parts⟩, after)

def endsBareValue (c : Char) : Bool := isAsciiBlank c || c == '>'

def readValue (hasBraces : Bool) (p : Point) : Option Value × Point :=
  match p.rest with
  | [] => (none, p)
  | c :: _ =>
    if c == '"' || c == '\'' then
      let (v, after) := readQuoted hasBraces c p
      (some v, after)
    else if c == '\x7b' && hasBraces then
      let after := p.pastBraces
      (some ⟨⟨p.pos, after.pos⟩, false, [.braces ⟨p.pos, after.pos⟩]⟩, after)
    else
      let after := p.skip (!endsBareValue ·)
      (some ⟨⟨p.pos, after.pos⟩, false, [.text ⟨p.pos, after.pos⟩]⟩, after)

def endsName (c : Char) : Bool := isAsciiBlank c || c == '=' || c == '>' || c == '/'

/-- An attribute that begins with neither a blank nor the end of its tag. A stray equals sign is
one without a name. -/
def readAttribute (hasBraces : Bool) (p : Point) : Attribute × Point :=
  let text := p.rest.takeWhile (!endsName ·)
  let behind := p.skip (!endsName ·)
  let name : Span := ⟨p.pos, behind.pos⟩
  if text.isEmpty then (⟨name, [], none⟩, p.next)
  else
    let equals := behind.skipBlanks
    if equals.sees ['='] then
      let (value, after) := readValue hasBraces equals.next.skipBlanks
      (⟨name, text, value⟩, after)
    else (⟨name, text, none⟩, equals)

end ClassSort.Markup
