import Highlight.Css.Language
import Highlight.Proofs.Html.Grammar
import Highlight.Proofs.Lexeme.Number
/-! # Declarations

Lists of declarations on one line of a rule, with words and numbers for values and any blanks that
may stand in them. Beside the texts that write them down stand the tokens that they should become,
those that they do become, and the condition on which these are the same: nothing that is no name is
read as one.
-/
namespace Highlight.Css

open Html (Gap)
open Lexeme (IsDigits)

/-- Inside a rule, with nothing else open. -/
def State.rule : State where
  inRule := true

structure Word where
  text : Text
  named : text ≠ []
  letters : ∀ c ∈ text, c.isAlpha = true

/-- Digits, or a point with digits behind it and perhaps in front of it. -/
inductive Numeral where
  | whole (digits : Text) (isDigits : IsDigits digits)
  | point (front behind : Text) (frontDigits : ∀ c ∈ front, c.isDigit = true)
    (isDigits : IsDigits behind)

def Numeral.text : Numeral → Text
  | .whole digits _ => digits
  | .point front behind _ _ => front ++ '.' :: behind

/-- The unit of a number, if it has one. -/
inductive Measure where
  | bare
  | letters (w : Word)
  | percent

namespace Measure

def text : Measure → Text
  | bare => []
  | letters w => w.text
  | percent => ['%']

def tokens : Measure → List Token
  | bare => []
  | letters w => [⟨.identifier, w.text⟩]
  | percent => [⟨.identifier, ['%']⟩]

end Measure

structure Quantity where
  negative : Bool
  numeral : Numeral
  measure : Measure

/-- One of the values of a declaration. -/
inductive Component where
  | word (w : Word)
  | quantity (q : Quantity)

namespace Component

def text : Component → Text
  | word w => w.text
  | quantity ⟨false, n, m⟩ => n.text ++ m.text
  | quantity ⟨true, n, m⟩ => '-' :: (n.text ++ m.text)

def tokens : Component → List Token
  | word w => [⟨.identifier, w.text⟩]
  | quantity ⟨false, n, m⟩ => ⟨.number, n.text⟩ :: m.tokens
  | quantity ⟨true, n, m⟩ => ⟨.operator, ['-']⟩ :: ⟨.number, n.text⟩ :: m.tokens

def Unsigned (v : Component) : Prop := ∀ q, v = quantity q → q.negative = false

/-- What is read as a name: a word, or a sign with all that goes on with it as a name would. -/
def lead : Component → Text
  | word w => w.text
  | quantity ⟨false, _, _⟩ => []
  | quantity ⟨true, .whole digits _, .letters w⟩ => '-' :: (digits ++ w.text)
  | quantity ⟨true, .whole digits _, _⟩ => '-' :: digits
  | quantity ⟨true, .point front _ _ _, _⟩ => '-' :: front

/-- The tokens that are read behind the name. -/
def tail : Component → List Token
  | word _ => []
  | quantity ⟨false, n, m⟩ => ⟨.number, n.text⟩ :: m.tokens
  | quantity ⟨true, .whole _ _, .percent⟩ => [⟨.text, ['%']⟩]
  | quantity ⟨true, .whole _ _, _⟩ => []
  | quantity ⟨true, .point _ behind _ _, m⟩ => ⟨.number, '.' :: behind⟩ :: m.tokens

/-- The tokens that are read, apart from a colon directly in front. -/
def reading (v : Component) : List Token :=
  if v.lead = [] then v.tail else ⟨.identifier, v.lead⟩ :: v.tail

end Component

/-- A value behind another one. -/
structure Further where
  gap : Gap
  component : Component
  apart : gap.text ≠ []

namespace Further

def text (f : Further) : Text := f.gap.text ++ f.component.text

def tokens (f : Further) : List Token := f.gap.tokens ++ f.component.tokens

def reading (f : Further) : List Token := f.gap.tokens ++ f.component.reading

end Further

structure Declaration where
  name : Word
  /-- In front of the colon. -/
  before : Gap
  /-- Behind the colon. -/
  after : Gap
  first : Component
  more : List Further
  /-- In front of the semicolon. -/
  ending : Gap
  /-- Behind the semicolon. -/
  behind : Gap

namespace Declaration

variable (d : Declaration)

/-- The name up to the colon. -/
def front : Text := d.name.text ++ d.before.text

/-- What follows the first value. -/
def back : Text := d.more.flatMap Further.text ++ (d.ending.text ++ (';' :: d.behind.text))

def text : Text := d.front ++ (':' :: (d.after.text ++ (d.first.text ++ d.back)))

def frontTokens : List Token := ⟨.callIdentifier, d.name.text⟩ :: d.before.tokens

def endTokens : List Token := d.ending.tokens ++ (⟨.text, [';']⟩ :: d.behind.tokens)

/-- The colon and the first value. -/
def firstTokens : List Token := ⟨.text, [':']⟩ :: (d.after.tokens ++ d.first.tokens)

/-- The name is that of a call, words and units are identifiers, numbers are numbers and their signs
operators. -/
def tokens : List Token :=
  d.frontTokens ++ (d.firstTokens ++ (d.more.flatMap Further.tokens ++ d.endTokens))

/-- A name directly behind the colon makes one token with it, as that of a pseudo-class would. -/
def firstReading : List Token :=
  if d.after.text = [] ∧ d.first.lead ≠ [] then
    ⟨.callIdentifier, ':' :: d.first.lead⟩ :: d.first.tail
  else ⟨.text, [':']⟩ :: (d.after.tokens ++ d.first.reading)

def reading : List Token :=
  d.frontTokens ++ (d.firstReading ++ (d.more.flatMap Further.reading ++ d.endTokens))

/-- No number has a sign, and no word stands directly behind the colon. -/
structure Plain : Prop where
  apart : d.after.text = [] → ∃ q, d.first = .quantity q
  first : d.first.Unsigned
  more : ∀ f ∈ d.more, f.component.Unsigned

end Declaration
end Highlight.Css
