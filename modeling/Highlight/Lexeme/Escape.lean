import Highlight.Lexeme.Number
import Highlight.Scanner
/-! # Escape sequences inside quoted strings -/
namespace Highlight.Lexeme

open Pattern

def backslash : Pattern := char Text.backslash

/-- Two or three octal digits, or one that is not zero. -/
def octalEscape : Pattern :=
  seq backslash (alt (between 2 3 isOctalDigit)
    (seq (one fun c => '1' ≤ c && c ≤ '7') (between 0 2 isOctalDigit)))

def hexEscape : Pattern := all [backslash, char 'x', between 2 2 isHexDigit]

def unicodeEscape : Pattern :=
  all [backslash, char 'u', alt (between 4 4 isHexDigit) (all [char '{', many1 isHexDigit, char '}'])]

/-- A backslash that ends the line, so that the string goes on in the next one. -/
def lineEndEscape : Pattern := seq backslash finish

def isEscapable (c : Char) : Bool :=
  "bfnrtv0".toList.contains c || [Text.singleQuote, Text.doubleQuote, Text.backquote, '$',
    Text.backslash].contains c

def singleEscape : Pattern := seq backslash (one isEscapable)

/-- Reads an escape sequence and tells whether it is the one that ends the line. -/
def escape? (s : Scanner) : Option (Scanner × Bool) :=
  (s.token? .escape (any [octalEscape, hexEscape, unicodeEscape])).map (·, false)
    <|> (s.token? .escape lineEndEscape).map (·, true)
    <|> (s.token? .escape singleEscape).map (·, false)

end Highlight.Lexeme
