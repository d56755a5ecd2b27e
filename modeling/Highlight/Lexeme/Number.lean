import Highlight.Pattern
/-! # Numeric literals

Notations of numeric literals. All but the sign are shared by the languages that have them; each
may end in the letter `n`.
-/
namespace Highlight.Lexeme

open Pattern

def isHexDigit (c : Char) : Bool :=
  c.isDigit || ('a' ≤ c && c ≤ 'f') || ('A' ≤ c && c ≤ 'F')

def isOctalDigit (c : Char) : Bool := '0' ≤ c && c ≤ '7'

def isBinaryDigit (c : Char) : Bool := c == '0' || c == '1'

def oneOf (cs : List Char) : Pattern := one (cs.contains ·)

def bigSuffix : Pattern := optional (char 'n')

def hexNumber : Pattern := all [char '0', oneOf ['x', 'X'], many1 isHexDigit, bigSuffix]

def binaryNumber : Pattern := all [char '0', oneOf ['b', 'B'], many1 isBinaryDigit, bigSuffix]

/-- The letter after the leading zero may be left out. -/
def octalNumber : Pattern :=
  all [char '0', optional (oneOf ['o', 'O']), many1 isOctalDigit, bigSuffix]

def exponent : Pattern := all [oneOf ['e', 'E'], optional (oneOf ['+', '-']), many1 Char.isDigit]

/-- Digits with perhaps a point after or between them, or a point and digits. -/
def mantissa : Pattern :=
  alt (seq (many1 Char.isDigit) (optional (seq (char '.') (many Char.isDigit))))
    (seq (char '.') (many1 Char.isDigit))

def decimalNumber : Pattern := all [mantissa, optional exponent, bigSuffix]

def signedDecimalNumber : Pattern := seq (optional (oneOf ['+', '-'])) decimalNumber

/-- The notations of unsigned numbers, in the order in which they are tried. -/
def number : Pattern := any [hexNumber, binaryNumber, octalNumber, decimalNumber]

def signedNumber : Pattern := any [hexNumber, binaryNumber, octalNumber, signedDecimalNumber]

end Highlight.Lexeme
