import Highlight.Scanner
/-! # Words, blanks and quotes, as several languages write them -/
namespace Highlight.Lexeme

open Pattern

def isWordStart (c : Char) : Bool := c.isAlpha || c == '_' || c == '$'

def isWordChar (c : Char) : Bool := c.isAlphanum || c == '_' || c == '$'

/-- ASCII letters, digits, `_` and `$`, with no digit in front. -/
def identifier : Pattern := seq (one isWordStart) (many isWordChar)

def blanks : Pattern := many1 Text.isBlank

def optionalBlanks : Pattern := many Text.isBlank

def isQuote (c : Char) : Bool := c == Text.doubleQuote || c == Text.singleQuote

def quote : Pattern := one isQuote

end Highlight.Lexeme
