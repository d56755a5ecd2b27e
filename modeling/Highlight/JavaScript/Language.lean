import Highlight.JavaScript.State
import Highlight.JavaScript.Word
import Highlight.Language
import Highlight.Lexeme.Comment
import Highlight.Lexeme.Escape
import Highlight.Lexeme.Word
/-! # JavaScript

Templates and block comments go on in the next line; a string in single or double
quotes does so only after a backslash at the end of the line.
-/
namespace Highlight.JavaScript

open Lexeme Pattern

def placeholderOpen : Text := ['$', '{']

/-- What a string holds between its quotes, escape sequences and placeholders. -/
def stringBody : Pattern :=
  alt (many1 fun c => !(isQuote c || c == Text.backquote || c == Text.backslash || c == '$'))
    (one (· != '\n'))

def openPlaceholder? (s : Scanner) (st : State) : Option (Scanner × State) :=
  if st.current.inTemplate then
    (s.tokenText? .string placeholderOpen).map (·, st.enterPlaceholder)
  else none

def closeString? (quote : Char) (s : Scanner) (st : State) : Option (Scanner × State) :=
  (s.tokenChar? .string quote).map
    (·, { st with current := { st.current with opener := none, inTemplate := false } })

def scanString (quote : Char) (s : Scanner) (st : State) : Scanner × State :=
  match escape? s with
  | some (s, endsLine) => (s, { st with newlineEscape := st.newlineEscape || endsLine })
  | none =>
    (openPlaceholder? s st <|> closeString? quote s st).getD
      ((s.accept stringBody).emit .string, st)

def closePlaceholder? (s : Scanner) (st : State) : Option (Scanner × State) :=
  if st.belowPlaceholder then (s.tokenChar? .string '}').map (·, st.leavePlaceholder) else none

def openTemplate? (s : Scanner) (st : State) : Option (Scanner × State) :=
  (s.tokenChar? .string Text.backquote).map
    (·, { st with current := { st.current with opener := some Text.backquote, inTemplate := true } })

def openString? (s : Scanner) (st : State) : Option (Scanner × State) :=
  (s.token? .string quote).map fun s =>
    (s, { st with current := { st.current with opener := s.lastMatch.head? } })

def openComment? (s : Scanner) (st : State) : Option (Scanner × State) :=
  (s.tokenText? .comment blockOpen).map (·, { st with inBlockComment := true })

/-- A listed word, unless a point before it makes it the name of a property. -/
def keyword? (s : Scanner) : Option Scanner :=
  if s.lastMatch = ['.'] then none
  else do
    let word ← s.peek? identifier
    let kind ← wordKind? word
    some ((s.advance word.length).emit kind)

/-- The steps that leave the state alone. -/
def plain? (s : Scanner) : Option Scanner :=
  s.token? .comment lineComment
    <|> keyword? s
    <|> s.tokenBefore? .callIdentifier identifier (seq optionalBlanks (char '('))
    <|> s.token? .identifier identifier
    <|> s.token? .number number
    <|> s.tokenAny? .operator operators
    <|> s.token? .whitespace blanks

def scanCode (s : Scanner) (st : State) : Scanner × State :=
  (closePlaceholder? s st <|> openTemplate? s st <|> openString? s st <|> openComment? s st
    <|> (plain? s).map (·, st)).getD (s, st)

def scan (s : Scanner) (st : State) : Scanner × State :=
  if st.inBlockComment then
    let (s, ended) := scanComment blockClose s
    (s, { st with inBlockComment := !ended })
  else
    match st.openString? with
    | some quote => scanString quote s st
    | none => scanCode s st

/-- Closes a string that neither is a template nor goes on in the next line. -/
def endLine (st : State) : State :=
  if st.current.inTemplate || st.newlineEscape then st
  else { st with current := { st.current with opener := none } }

def language : Language State where
  id := "javascript".toList
  initial := {}
  beginLine := fun st => { st with newlineEscape := false }
  scan := scan
  endLine := endLine

end Highlight.JavaScript
