import Highlight.Css.State
import Highlight.Language
import Highlight.Lexeme.Comment
import Highlight.Lexeme.Number
import Highlight.Lexeme.Word
/-! # CSS

Braces and square brackets count even inside strings; a block comment opens there too.
-/
namespace Highlight.Css

open Lexeme Pattern

def comparators : List Text := ["~=", "|=", "^=", "$=", "*=", "="].map String.toList

def operators : List Text := ["+", "-", "*", "/", ">", "~"].map String.toList

/-- Letters, digits and hyphens, with no digit in front. -/
def name : Pattern :=
  seq (one fun c => c.isAlpha || c == '-') (many fun c => c.isAlphanum || c == '-')

def escape : Pattern :=
  seq (char Text.backslash) (oneOf [Text.doubleQuote, Text.singleQuote, ':'])

def stringBody : Pattern := many1 fun c => !(isQuote c || c == Text.backslash)

def bareValue : Pattern := many1 Char.isAlphanum

def colour : Pattern :=
  all [char '#', between 3 3 isHexDigit, optional (between 3 3 isHexDigit)]

def number : Pattern :=
  alt (all [many Char.isDigit, char '.', many1 Char.isDigit]) (many1 Char.isDigit)

def unit : Pattern := many1 fun c => c.isAlpha || c == '%'

def bracket? (s : Scanner) (st : State) : Option (Scanner × State) :=
  (s.tokenChar? .text '{').map (·, { st with inRule := true })
    <|> (s.tokenChar? .text '}').map (·, { st with inRule := false })
    <|> (s.tokenChar? .text '[').map (·, { st with inAttributeSelector := true })
    <|> (s.tokenChar? .text ']').map (·, { st with inAttributeSelector := false })

def openComment? (s : Scanner) (st : State) : Option (Scanner × State) :=
  (s.tokenText? .comment blockOpen).map (·, { st with inBlockComment := true })

/-- One step inside a string, where none of the steps that strings share with the rest applies. -/
def scanString (quote : Char) (s : Scanner) (st : State) : Scanner × State :=
  match s.tokenChar? .string quote with
  | some s => (s, { st with stringOpener := none })
  | none => ((s.accept (alt stringBody (one fun _ => true))).emit .string, st)

def openString? (s : Scanner) (st : State) : Option (Scanner × State) :=
  (s.token? .string quote).map fun s =>
    (s, { st with stringOpener := s.lastMatch.head?, afterComparator := false })

/-- A bare word straight after a comparator. -/
def bareValue? (s : Scanner) (st : State) : Option Scanner :=
  if st.afterComparator then s.token? .string bareValue else none

/-- The letter before the bracket that closes an attribute selector. -/
def caseFlag? (s : Scanner) (st : State) : Option Scanner :=
  if st.inAttributeSelector then s.tokenBefore? .operator (oneOf ['i', 's']) (char ']') else none

def property? (s : Scanner) (st : State) : Option Scanner :=
  if st.inRule then s.tokenBefore? .callIdentifier name (seq optionalBlanks (char ':')) else none

def atRule? (s : Scanner) (st : State) : Option (Scanner × State) :=
  (s.token? .keyword (seq (char '@') name)).map (·, { st with inAtRule := true })

def colour? (s : Scanner) (st : State) : Option Scanner :=
  if st.inRule then s.token? .number colour else none

def quantity? (s : Scanner) : Option Scanner :=
  (s.token? .number number).map fun s => (s.token? .identifier unit).getD s

def comparator? (s : Scanner) (st : State) : Option (Scanner × State) :=
  (s.tokenAny? .operator comparators).map (·, { st with afterComparator := true })

/-- The steps outside strings that follow that for a bare value. -/
def code? (s : Scanner) (st : State) : Option (Scanner × State) :=
  (caseFlag? s st <|> property? s st).map (·, st)
    <|> atRule? s st
    <|> (colour? s st
      <|> s.token? .identifier (seq (oneOf ['#', '.']) name)
      <|> s.token? .callIdentifier (all [char ':', optional (char ':'), name])
      <|> s.token? (if st.inValue then .identifier else .keyword) name
      <|> quantity? s).map (·, st)
    <|> comparator? s st
    <|> (s.tokenAny? .operator operators <|> s.token? .whitespace blanks).map (·, st)

/-- One step outside strings. Whatever it reads, the value of a comparator is past. -/
def scanCode (s : Scanner) (st : State) : Scanner × State :=
  let value? := bareValue? s st
  let st := { st with afterComparator := false }
  (value?.map (·, st) <|> code? s st).getD (s, st)

def scan (s : Scanner) (st : State) : Scanner × State :=
  if st.inBlockComment then
    let (s, ended) := scanComment blockClose s
    (s, { st with inBlockComment := !ended })
  else
    match bracket? s st <|> openComment? s st <|> (s.token? .escape escape).map (·, st) with
    | some step => step
    | none =>
      match st.stringOpener with
      | some quote => scanString quote s st
      | none => (openString? s st).getD (scanCode s st)

def endLine (st : State) : State := { st with inAtRule := false }

def language : Language State where
  id := "css".toList
  initial := {}
  scan := scan
  endLine := endLine

end Highlight.Css
