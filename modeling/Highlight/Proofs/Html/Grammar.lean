import Highlight.Html.Language
import Mathlib.Data.List.Forall2
/-! # Start tags

Start tags on one line, with attributes that have no value, one in quotes or one without, and with
any blanks that may stand in them. Beside the texts that write them down stand the tokens that they
should become. No character references are in them: those are read as escapes wherever they are.
-/
namespace Highlight.Html

open Lexeme (isQuote)

/-- Blanks, perhaps none. -/
structure Gap where
  text : Text
  blank : ∀ c ∈ text, Text.isBlank c = true

/-- A value as it is written down. In quotes it may hold anything else that could end it: blanks,
`>`, `=`, and quotes of the other kind. -/
inductive AttributeValue where
  | quoted (quote : Char) (body : Text) (known : isQuote quote = true)
    (free : ∀ c ∈ body, c ≠ quote ∧ c ≠ '&')
  | bare (text : Text) (nonempty : text ≠ [])
    (free : ∀ c ∈ text, isQuote c = false ∧ c ≠ '>' ∧ c ≠ '&' ∧ Text.isBlank c = false)

def AttributeValue.text : AttributeValue → Text
  | .quoted quote body _ _ => quote :: (body ++ [quote])
  | .bare text _ _ => text

/-- What assigns a value to an attribute, and the value. -/
structure Assignment where
  before : Gap
  after : Gap
  value : AttributeValue

def Assignment.sign (a : Assignment) : Text := a.before.text ++ '=' :: a.after.text

/-- An attribute with the blanks in front of it. -/
structure Attribute where
  gap : Gap
  name : Text
  assignment? : Option Assignment
  apart : gap.text ≠ []
  named : name ≠ []
  letters : ∀ c ∈ name, c.isAlpha = true ∨ c = '-'

namespace Attribute

def valueText (a : Attribute) : Text :=
  match a.assignment? with
  | none => []
  | some assignment => assignment.sign ++ assignment.value.text

def text (a : Attribute) : Text := a.gap.text ++ (a.name ++ a.valueText)

end Attribute

structure StartTag where
  initial : Char
  more : Text
  attributes : List Attribute
  gap : Gap
  letter : initial.isAlpha = true
  alphanumeric : ∀ c ∈ more, c.isAlphanum = true

namespace StartTag

def name (t : StartTag) : Text := t.initial :: t.more

def text (t : StartTag) : Text :=
  ('<' :: t.name) ++ (t.attributes.flatMap Attribute.text ++ (t.gap.text ++ ['>']))

end StartTag

/-- Blanks are one token, if there are any. -/
def Gap.tokens (g : Gap) : List Token := if g.text.isEmpty then [] else [⟨.whitespace, g.text⟩]

/-- A value is string tokens, its quotes included. -/
structure AttributeValue.ReadAs (v : AttributeValue) (tokens : List Token) : Prop where
  spell : Token.spell tokens = v.text
  kinds : ∀ t ∈ tokens, t.kind = .string

def Attribute.ReadAs (a : Attribute) (tokens : List Token) : Prop :=
  match a.assignment? with
  | none => tokens = [⟨.whitespace, a.gap.text⟩, ⟨.identifier, a.name⟩]
  | some assignment => ∃ value, assignment.value.ReadAs value ∧
      tokens = [⟨.whitespace, a.gap.text⟩, ⟨.identifier, a.name⟩,
        ⟨.syntaxSymbol, assignment.sign⟩] ++ value

/-- The tag is its name between the marks, and in between the attributes in turn. -/
def StartTag.ReadAs (t : StartTag) (tokens : List Token) : Prop :=
  ∃ pieces, List.Forall₂ Attribute.ReadAs t.attributes pieces ∧
    tokens = [⟨.syntaxSymbol, ['<']⟩, ⟨.keyword, t.name⟩] ++
      (pieces.flatten ++ (t.gap.tokens ++ [⟨.syntaxSymbol, ['>']⟩]))

end Highlight.Html
