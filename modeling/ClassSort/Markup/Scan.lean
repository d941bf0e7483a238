import ClassSort.Markup.Attribute
import ClassSort.Rule.StyleLang
import ClassSort.Script.Tree

/-!
# Scanning a document

One pass over a document finds its scripts, its style blocks and the values of its `class`
attributes. Comments and the bodies of scripts and style blocks are not searched for tags. Where a
document has expressions in braces they are skipped whole, so that an angle bracket in one is no tag.
-/

namespace ClassSort.Markup

open Script (Dialect)

inductive Finding where
  | script (content : Span) (dialect : Dialect)
  | style (block : StyleBlock)
  | classes (value : Value)
  deriving DecidableEq, Repr

/-- How a script is written, as far as one more attribute tells; `none` for what is no script. -/
def scriptDialect (name : List Char) (value : String) (d : Option Dialect) :
    Option Dialect :=
  if name == "lang".toList then
    if value == "ts" || value == "typescript" then d.map fun _ => .typeScript else d
  else if name == "type".toList then
    if ["", "module", "text/javascript", "application/javascript"].contains value then d
    else if value == "text/typescript" || value == "application/typescript" then d.map fun _ => .typeScript
    else none
  else d

structure Tag where
  /-- The name in small letters. -/
  name : List Char
  dialect : Option Dialect
  lang : Option LangAttribute
  /-- Values of `class`, the last one first. -/
  classes : List Value

namespace Tag

def isScript (t : Tag) : Bool := t.name == "script".toList

def isStyle (t : Tag) : Bool := t.name == "style".toList

def add (source : List Char) (t : Tag) (a : Attribute) : Tag :=
  let t :=
    if t.isStyle && a.text == "lang".toList then
      let stop := (a.value.map (·.span.stop)).getD a.name.stop
      { t with lang := some ⟨⟨a.name.start, stop⟩, a.value.map (·.content)⟩ }
    else t
  match a.value with
  | none => t
  | some v =>
    if t.isScript then
      let value := String.ofList ((sliceChars? source v.content).getD [])
      { t with dialect := scriptDialect a.text value t.dialect }
    else if a.text == "class".toList then { t with classes := v :: t.classes }
    else t

end Tag

/-- Reads the attributes of a tag up to its end; there is none in a document that is cut off. -/
def readAttributes (source : List Char) (hasBraces : Bool) : Nat → Tag → Point → Tag × Option Nat × Point
  | 0, tag, p => (tag, none, p)
  | fuel + 1, tag, p =>
    let p := p.skipBlanks
    match p.rest with
    | [] => (tag, none, p)
    | c :: _ =>
      if c == '>' then (tag, some p.pos, p.next)
      else if c == '/' then readAttributes source hasBraces fuel tag p.next
      else if c == '\x7b' && hasBraces then readAttributes source hasBraces fuel tag p.pastBraces
      else
        let (a, after) := readAttribute hasBraces p
        readAttributes source hasBraces fuel (tag.add source a) after

def closes (name : List Char) (cs : List Char) : Bool :=
  match cs with
  | '<' :: '/' :: rest => (rest.take name.length).map Char.toLower == name
  | _ => false

def isTagLetter (c : Char) : Bool := c.isAlphanum || c == '-' || c == ':' || c == '.'

def readTag (source : List Char) (hasBraces : Bool) (p : Point) : List Finding × Point :=
  let name := (p.next.rest.takeWhile isTagLetter).map Char.toLower
  let inside := p.next.skip isTagLetter
  let tag : Tag := ⟨name, some .javaScript, none, []⟩
  let (tag, stop, p) := readAttributes source hasBraces (inside.rest.length + 1) tag inside
  let classes := tag.classes.reverse.map Finding.classes
  match stop with
  | none => (classes, p)
  | some tagEnd =>
    if tag.isScript || tag.isStyle then
      let close := p.find (closes name)
      let body : Span := ⟨p.pos, close.pos⟩
      let found :=
        if tag.isStyle then [Finding.style ⟨tagEnd, tag.lang, body⟩]
        else (tag.dialect.map fun d => Finding.script body d).toList
      (classes ++ found, close)
    else (classes, p)

def scanFrom (source : List Char) (hasBraces : Bool) : Nat → Point → List Finding
  | 0, _ => []
  | fuel + 1, p =>
    match p.rest with
    | [] => []
    | '<' :: '!' :: '-' :: '-' :: _ =>
      scanFrom source hasBraces fuel ((p.ahead 4).past ['-', '-', '>'])
    | '<' :: c :: _ =>
      if c.isAlpha then
        let (found, after) := readTag source hasBraces p
        found ++ scanFrom source hasBraces fuel after
      else scanFrom source hasBraces fuel p.next
    | c :: _ =>
      scanFrom source hasBraces fuel (if c == '\x7b' && hasBraces then p.pastBraces else p.next)

/-- What a document holds, in its order. -/
def scan (source : String) (hasBraces : Bool) : List Finding :=
  let p := Point.ofText source
  scanFrom p.rest hasBraces p.rest.length p

end ClassSort.Markup
