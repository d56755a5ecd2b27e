import Highlight.Json.State
import Highlight.Language
import Highlight.Lexeme.Comment
import Highlight.Lexeme.Escape
import Highlight.Lexeme.Word
/-! # JSON

Beyond the standard this lexer takes comments, strings in single quotes, round brackets and the
numbers of JavaScript.
-/
namespace Highlight.Json

open Lexeme Pattern

def valueKeywords : List Text := ["false", "Infinity", "NaN", "null", "true"].map String.toList

/-- What a string holds between its quotes and escape sequences. -/
def stringBody : Pattern :=
  alt (many1 fun c => !(isQuote c || c == Text.backslash)) (one (· != '\n'))

def scanString (quote : Char) (s : Scanner) (st : State) : Scanner × State :=
  match escape? s with
  | some (s, endsLine) => (s, { st with newlineEscape := st.newlineEscape || endsLine })
  | none =>
    match s.tokenChar? st.stringKind quote with
    | some s => (s, { st with stringOpener := none })
    | none => ((s.accept stringBody).emit st.stringKind, st)

def openString? (s : Scanner) (st : State) : Option (Scanner × State) :=
  (s.token? st.stringKind quote).map fun s => (s, { st with stringOpener := s.lastMatch.head? })

def openComment? (s : Scanner) (st : State) : Option (Scanner × State) :=
  (s.tokenText? .comment blockOpen).map (·, { st with inBlockComment := true })

def bracket? (s : Scanner) (st : State) : Option (Scanner × State) := do
  let (kind, opens) ← s.rest.head?.bind BracketKind.of?
  let s ← s.acceptOne?
  some (s.emit .bracket, st.passBracket kind opens)

/-- A listed word that no point precedes. -/
def valueKeyword? (s : Scanner) : Option Scanner :=
  if s.lastMatch = ['.'] then none
  else do
    let word ← s.peek? identifier
    if valueKeywords.contains word then some ((s.advance word.length).emit .valueKeyword) else none

def colon? (s : Scanner) (st : State) : Option (Scanner × State) :=
  (s.tokenChar? .assignment ':').map (·, { st with inObjectKey := false })

def comma? (s : Scanner) (st : State) : Option (Scanner × State) :=
  (s.tokenChar? .separator ',').map (·, { st with inObjectKey := st.inObjectKey || st.inObject })

def scanCode (s : Scanner) (st : State) : Scanner × State :=
  (openString? s st <|> openComment? s st
    <|> (s.token? .comment lineComment).map (·, st)
    <|> bracket? s st
    <|> (valueKeyword? s).map (·, st)
    <|> (s.token? .identifier identifier).map (·, st)
    <|> (s.token? .number signedNumber).map (·, st)
    <|> colon? s st <|> comma? s st
    <|> (s.token? .whitespace blanks).map (·, st)).getD (s, st)

def scan (s : Scanner) (st : State) : Scanner × State :=
  if st.inBlockComment then
    let (s, ended) := scanComment blockClose s
    (s, { st with inBlockComment := !ended })
  else
    match st.stringOpener with
    | some quote => scanString quote s st
    | none => scanCode s st

/-- Closes a string that does not go on in the next line. -/
def endLine (st : State) : State :=
  if st.newlineEscape then st else { st with stringOpener := none }

def language : Language State where
  id := "json".toList
  initial := {}
  beginLine := fun st => { st with newlineEscape := false }
  scan := scan
  endLine := endLine

end Highlight.Json
