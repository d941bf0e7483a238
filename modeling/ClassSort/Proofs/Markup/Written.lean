import ClassSort.Proofs.Markup.Attributes
import ClassSort.Proofs.Markup.Balanced
import ClassSort.Proofs.Rule.Rows

/-!
Documents as they are written: a row of texts, comments, tags, expressions in braces, scripts and style
blocks. For each of them it is said what it looks like and what is to be found in it, and where.
-/

namespace ClassSort.Markup

open Grouping (Row shown)
open Script (Dialect)

/-- How the value of an attribute is written. -/
inductive WrittenValue where
  /-- Between quotes, a row of texts and of expressions with their braces. -/
  | quoted (quote : Char) (row : Row)
  | plain (text : List Char)
  | braces (content : List Char)

structure WrittenAttribute where
  /-- The white space in front of it. -/
  blanks : List Char
  name : List Char
  value : Option WrittenValue

structure WrittenTag where
  name : List Char
  attributes : List WrittenAttribute
  /-- The white space in front of its end. -/
  blanks : List Char

inductive Item where
  | plain (text : List Char)
  | comment (body : List Char)
  | endTag (name : List Char)
  | braces (content : List Char)
  | startTag (tag : WrittenTag)
  /-- A script or a style block; `closing` is the name in its end tag. -/
  | element (tag : WrittenTag) (body closing : List Char)

/-! What it looks like. -/

def braced (content : List Char) : List Char := '\x7b' :: (content ++ ['\x7d'])

def WrittenValue.text : WrittenValue → List Char
  | .quoted quote row => quote :: ((shown row).toList ++ [quote])
  | .plain text => text
  | .braces content => braced content

/-- The value without its quotes. -/
def WrittenValue.content : WrittenValue → List Char
  | .quoted _ row => (shown row).toList
  | .plain text => text
  | .braces content => braced content

def WrittenAttribute.assigned (a : WrittenAttribute) : List Char :=
  match a.value with
  | none => []
  | some v => '=' :: v.text

def WrittenAttribute.text (a : WrittenAttribute) : List Char := a.blanks ++ (a.name ++ a.assigned)

def attributesText (as : List WrittenAttribute) : List Char := as.flatMap (·.text)

def WrittenTag.text (tag : WrittenTag) : List Char :=
  '<' :: (tag.name ++ (attributesText tag.attributes ++ (tag.blanks ++ ['>'])))

def endTagText (name : List Char) : List Char := '<' :: '/' :: (name ++ ['>'])

def Item.text : Item → List Char
  | .plain text => text
  | .comment body => "<!--".toList ++ (body ++ "-->".toList)
  | .endTag name => endTagText name
  | .braces content => braced content
  | .startTag tag => tag.text
  | .element tag body closing => tag.text ++ (body ++ endTagText closing)

def documentText (items : List Item) : List Char := items.flatMap (·.text)

/-! What is to be found. -/

/-- The value that is written at a position. -/
def WrittenValue.value (n : Nat) : WrittenValue → Value
  | .quoted _ row => Grouping.quoted n row
  | .plain text => ⟨⟨n, n + byteLength text⟩, false, [.text ⟨n, n + byteLength text⟩]⟩
  | .braces content => ⟨⟨n, n + byteLength (braced content)⟩, false, [.braces ⟨n, n + byteLength (braced content)⟩]⟩

def WrittenAttribute.named (n : Nat) (a : WrittenAttribute) : Attribute :=
  ⟨⟨n, n + byteLength a.name⟩, a.name, a.value.map (·.value (n + byteLength a.name + 1))⟩

def attributesAt : Nat → List WrittenAttribute → List Attribute
  | _, [] => []
  | n, a :: as => a.named (n + byteLength a.blanks) :: attributesAt (n + byteLength a.text) as

namespace WrittenTag

def lower (tag : WrittenTag) : List Char := tag.name.map Char.toLower

def attributesAt (n : Nat) (tag : WrittenTag) : List Attribute :=
  Markup.attributesAt (n + 1 + byteLength tag.name) tag.attributes

def classesAt (n : Nat) (tag : WrittenTag) : List Finding :=
  if tag.lower = "script".toList then [] else (classValues (tag.attributesAt n)).map .classes

/-- The attributes that have a value, and their values. -/
def settings (tag : WrittenTag) : List (List Char × String) :=
  tag.attributes.filterMap fun a => a.value.map fun v => (a.name, String.ofList v.content)

end WrittenTag

def isNoScript (setting : List Char × String) : Bool :=
  setting.1 == "type".toList && !(["", "module", "text/javascript", "application/javascript",
    "text/typescript", "application/typescript"].contains setting.2)

def isTypeScript (setting : List Char × String) : Bool :=
  (setting.1 == "lang".toList && ["ts", "typescript"].contains setting.2) ||
    (setting.1 == "type".toList && ["text/typescript", "application/typescript"].contains setting.2)

def dialectOf (settings : List (List Char × String)) : Option Dialect :=
  if settings.any isNoScript then none
  else if settings.any isTypeScript then some .typeScript else some .javaScript

/-- What is to be found in an item that begins at a position. -/
def Item.found (n : Nat) : Item → List Finding
  | .startTag tag => tag.classesAt n
  | .element tag body _ =>
    let start := n + byteLength tag.text
    let range : Span := ⟨start, start + byteLength body⟩
    tag.classesAt n ++
      if tag.lower = "style".toList then [.style ⟨start - 1, lastLang? (tag.attributesAt n), range⟩]
      else ((dialectOf tag.settings).map (Finding.script range)).toList
  | _ => []

def documentFound : Nat → List Item → List Finding
  | _, [] => []
  | n, item :: items => item.found n ++ documentFound (n + byteLength item.text) items

/-! What may be written where. -/

/-- A text without tags, and without expressions where a document has them. -/
def Quiet (hasBraces : Bool) (text : List Char) : Prop := ∀ c ∈ text, c ≠ '<' ∧ (hasBraces = true → c ≠ '\x7b')

instance (hasBraces : Bool) (text : List Char) : Decidable (Quiet hasBraces text) :=
  inferInstanceAs (Decidable (∀ c ∈ text, _))

/-- A row of texts, which hold no quote and no opening brace, and expressions. -/
structure Spelled (hasBraces : Bool) (quote : Char) (row : Row) : Prop where
  texts : ∀ cell ∈ row, cell.1 = true → cell.2 ≠ "" ∧
    ∀ c ∈ cell.2.toList, c ≠ quote ∧ (hasBraces = true → c ≠ '\x7b')
  expressions : ∀ cell ∈ row, cell.1 = false →
    hasBraces = true ∧ ∃ content, IsFlat content ∧ cell.2.toList = braced content
  alternate : row.IsChain fun a b => ¬ (a.1 = true ∧ b.1 = true)

def WrittenValue.WellFormed (hasBraces : Bool) : WrittenValue → Prop
  | .quoted quote row => (quote = '"' ∨ quote = '\'') ∧ Spelled hasBraces quote row
  | .plain text => (∀ c ∈ text, endsBareValue c = false) ∧
      ∃ c ∈ text.head?, c ≠ '"' ∧ c ≠ '\'' ∧ (hasBraces = true → c ≠ '\x7b')
  | .braces content => hasBraces = true ∧ IsFlat content

structure WrittenAttribute.WellFormed (hasBraces : Bool) (a : WrittenAttribute) : Prop where
  apart : a.blanks ≠ []
  blanks : ∀ c ∈ a.blanks, isAsciiBlank c = true
  name : ∀ c ∈ a.name, endsName c = false
  named : ∃ c ∈ a.name.head?, hasBraces = true → c ≠ '\x7b'
  value : ∀ v ∈ a.value, v.WellFormed hasBraces

structure WrittenTag.WellFormed (hasBraces : Bool) (tag : WrittenTag) : Prop where
  name : ∀ c ∈ tag.name, isTagLetter c = true
  named : ∃ c ∈ tag.name.head?, c.isAlpha = true
  attributes : ∀ a ∈ tag.attributes, a.WellFormed hasBraces
  blanks : ∀ c ∈ tag.blanks, isAsciiBlank c = true

def Item.WellFormed (hasBraces : Bool) : Item → Prop
  | .plain text => Quiet hasBraces text
  | .comment body => ¬ "-->".toList <:+: body
  | .endTag name => Quiet hasBraces name
  | .braces content => hasBraces = true ∧ IsFlat content
  | .startTag tag => tag.WellFormed hasBraces ∧ tag.lower ≠ "script".toList ∧ tag.lower ≠ "style".toList
  | .element tag body closing => tag.WellFormed hasBraces ∧
      (tag.lower = "script".toList ∨ tag.lower = "style".toList) ∧
      ¬ ('<' :: '/' :: tag.lower) <:+: body.map Char.toLower ∧ closing.map Char.toLower = tag.lower

end ClassSort.Markup
