import Highlight.Proofs.Lexeme.Number
import Highlight.Proofs.Lexeme.Quoted
/-! # JSON texts

The texts of the JSON standard: values with the lexical elements that write them down, and their
layouts, which put whitespace between the elements and end lines at line feeds of it. Beside them
stand the tokens that such texts should become.
-/
namespace Highlight.Json

/-- The characters that may stand between elements. -/
inductive Blank where
  | space
  | tab
  | lineFeed
  | carriageReturn
  deriving DecidableEq, Repr

def Blank.char : Blank → Char
  | .space => ' '
  | .tab => '\t'
  | .lineFeed => '\n'
  | .carriageReturn => '\r'

def literalNames : List Text := ["true", "false", "null"].map String.toList

structure LiteralName where
  text : Text
  known : text ∈ literalNames

/-- A number, of which only the whole part has to be there. -/
structure Numeral where
  negative : Bool
  whole : Text
  frac : Text
  exp : Text
  isWhole : Lexeme.IsWhole whole
  isFraction : frac = [] ∨ Lexeme.IsFraction frac
  isExponent : exp = [] ∨ Lexeme.IsExponent exp

namespace Numeral

def sign (n : Numeral) : Text := if n.negative then ['-'] else []

def text (n : Numeral) : Text := n.sign ++ (n.whole ++ (n.frac ++ n.exp))

end Numeral

/-- What can follow a backslash alone. -/
def shortEscapes : List Char := Text.doubleQuote :: Text.backslash :: "/bfnrt".toList

/-- A character of a string as it is written down: as itself unless it is a control character, a
quote or a backslash, by a short escape, or by the four digits of its number. -/
inductive StringChar where
  | plain (c : Char) (ok : ' ' ≤ c ∧ c ≠ Text.doubleQuote ∧ c ≠ Text.backslash)
  | short (c : Char) (ok : c ∈ shortEscapes)
  | number (digits : Text) (four : digits.length = 4)
    (hex : digits.all Lexeme.isHexDigit = true)

def StringChar.text : StringChar → Text
  | .plain c _ => [c]
  | .short c _ => [Text.backslash, c]
  | .number digits _ _ => Text.backslash :: 'u' :: digits

structure Quoted where
  chars : List StringChar

namespace Quoted

def body (s : Quoted) : Text := s.chars.flatMap StringChar.text

def text (s : Quoted) : Text := Text.doubleQuote :: (s.body ++ [Text.doubleQuote])

end Quoted

/-- A value. Members of an object have their names in front. -/
inductive Datum where
  | literal (name : LiteralName)
  | number (n : Numeral)
  | string (s : Quoted)
  | array (items : List Datum)
  | object (members : List (Quoted × Datum))

/-- A lexical element. A string is an element of another kind where it names a member. -/
inductive Element where
  | beginObject
  | endObject
  | beginArray
  | endArray
  | nameSeparator
  | valueSeparator
  | literal (name : LiteralName)
  | number (n : Numeral)
  | name (s : Quoted)
  | string (s : Quoted)

namespace Element

def text : Element → Text
  | .beginObject => ['{']
  | .endObject => ['}']
  | .beginArray => ['[']
  | .endArray => [']']
  | .nameSeparator => [':']
  | .valueSeparator => [',']
  | .literal l => l.text
  | .number n => n.text
  | .name s => s.text
  | .string s => s.text

/-- Brackets and separators. Any two other elements have one of them between them. -/
def isStructural : Element → Bool
  | .literal _ | .number _ | .name _ | .string _ => false
  | _ => true

def kind : Element → TokenKind
  | .beginObject | .endObject | .beginArray | .endArray => .bracket
  | .nameSeparator => .assignment
  | .valueSeparator => .separator
  | .literal _ => .valueKeyword
  | .number _ => .number
  | .name _ => .identifier
  | .string _ => .string

end Element

mutual

/-- The elements that write a value down. -/
def Datum.elements : Datum → List Element
  | .literal name => [.literal name]
  | .number n => [.number n]
  | .string s => [.string s]
  | .array items => .beginArray :: (itemElements items ++ [.endArray])
  | .object members => .beginObject :: (memberElements members ++ [.endObject])

def itemElements : List Datum → List Element
  | [] => []
  | [d] => d.elements
  | d :: e :: ds => d.elements ++ .valueSeparator :: itemElements (e :: ds)

def memberElements : List (Quoted × Datum) → List Element
  | [] => []
  | [(name, d)] => .name name :: .nameSeparator :: d.elements
  | (name, d) :: m :: ms =>
    .name name :: .nameSeparator :: (d.elements ++ .valueSeparator :: memberElements (m :: ms))

end

/-- An element with the blanks behind it. -/
structure Cell where
  element : Element
  gap : List Blank

def blankText (gap : List Blank) : Text := gap.map Blank.char

def Cell.text (c : Cell) : Text := c.element.text ++ blankText c.gap

/-- A line of a layout: blanks in front of the first element, and elements with blanks. -/
structure Row where
  indent : List Blank
  cells : List Cell

namespace Row

def text (r : Row) : Text := blankText r.indent ++ r.cells.flatMap Cell.text

def elements (r : Row) : List Element := r.cells.map Cell.element

end Row

/-- A way to write a value in lines. A line ends at a line feed between two elements, or in front of
the first or behind the last one; line feeds at which no line ends are blanks of a line. -/
structure Layout (d : Datum) where
  rows : List Row
  elements_eq : rows.flatMap Row.elements = d.elements

def Layout.lines {d : Datum} (l : Layout d) : List Text := l.rows.map Row.text

/-- An element is one token, but a string may be several. -/
def Element.ReadAs (e : Element) (tokens : List Token) : Prop :=
  match e with
  | .name s => Lexeme.StringTokens .identifier s.text tokens
  | .string s => Lexeme.StringTokens .string s.text tokens
  | e => tokens = [⟨e.kind, e.text⟩]

/-- Blanks are one token, if there are any. -/
def blankTokens (gap : List Blank) : List Token :=
  if gap.isEmpty then [] else [⟨.whitespace, blankText gap⟩]

inductive ReadCells : List Cell → List Token → Prop
  | nil : ReadCells [] []
  | cons {c : Cell} {cells : List Cell} {tokens more : List Token} (head : c.element.ReadAs tokens)
      (tail : ReadCells cells more) :
      ReadCells (c :: cells) (tokens ++ blankTokens c.gap ++ more)

/-- The elements and the blanks of a line became its tokens, each one its own. -/
def Row.ReadAs (r : Row) (tokens : List Token) : Prop :=
  ∃ more, ReadCells r.cells more ∧ tokens = blankTokens r.indent ++ more

end Highlight.Json
