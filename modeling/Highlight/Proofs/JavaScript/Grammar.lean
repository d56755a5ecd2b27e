import Highlight.JavaScript.Language
/-! # Nested templates

Templates with literal texts and placeholders between their backquotes, whose placeholders hold code
of words, blanks and further templates. Beside the elements that write a template down stand the
lines that they make and the tokens that a line should become.
-/
namespace Highlight.JavaScript

/-- Stands for itself between the backquotes of a template. -/
def isLiteral (c : Char) : Bool := !(c == Text.backquote || c == Text.backslash || c == '$')

def isLetter (c : Char) : Bool := c.isAlpha || c == '_'

abbrev CharOf (f : Char → Bool) := { c : Char // f c = true }

mutual

/-- What stands between the backquotes of a template. -/
inductive Body where
  | done
  | literal (chars : List (CharOf isLiteral)) (more : Body)
  | placeholder (code : Code) (more : Body)

/-- What stands between the marks of a placeholder. -/
inductive Code where
  | done
  | word (letters : List (CharOf isLetter)) (more : Code)
  | blanks (chars : List (CharOf Text.isBlank)) (more : Code)
  | template (body : Body) (more : Code)

end

/-- A mark or a character. A backquote opens or closes a template, and marks of their own lead into
a placeholder and out of it. -/
inductive Element where
  | opens
  | closes
  | enters
  | leaves
  | literal (c : CharOf isLiteral)
  | letter (c : CharOf isLetter)
  | blank (c : CharOf Text.isBlank)

/-- The parts of a text that are told apart. All but the words and the blanks of code belongs to the
templates themselves. -/
inductive Part where
  | template
  | word
  | blank
  deriving DecidableEq, Repr

/-- The kinds of the tokens that a part becomes. -/
def Part.kinds : Part → List TokenKind
  | .template => [.string]
  | .word => [.identifier, .keyword, .valueKeyword]
  | .blank => [.whitespace]

namespace Element

def text : Element → Text
  | .opens | .closes => [Text.backquote]
  | .enters => placeholderOpen
  | .leaves => ['}']
  | .literal c => [c.val]
  | .letter c => [c.val]
  | .blank c => [c.val]

def part : Element → Part
  | .letter _ => .word
  | .blank _ => .blank
  | _ => .template

/-- The placeholders that are open behind an element. -/
def depthBehind (depth : Nat) : Element → Nat
  | .enters => depth + 1
  | .leaves => depth - 1
  | _ => depth

/-- A line feed, be it of a literal text or of code. -/
def isLineFeed (e : Element) : Bool := e.text == ['\n']

end Element

def textOf (es : List Element) : Text := es.flatMap Element.text

mutual

def Body.elements : Body → List Element
  | .done => []
  | .literal chars more => chars.map .literal ++ more.elements
  | .placeholder code more => .enters :: (code.elements ++ .leaves :: more.elements)

def Code.elements : Code → List Element
  | .done => []
  | .word letters more => letters.map .letter ++ more.elements
  | .blanks chars more => chars.map .blank ++ more.elements
  | .template body more => .opens :: (body.elements ++ .closes :: more.elements)

end

structure Template where
  body : Body

namespace Template

def elements (t : Template) : List Element := .opens :: (t.body.elements ++ [.closes])

def text (t : Template) : Text := textOf t.elements

end Template

/-- A line, and the number of placeholders that are open at its end. -/
structure Row where
  elements : List Element
  depth : Nat

/-- The lines that elements make behind some open placeholders. -/
def rows (depth : Nat) : List Element → List Row
  | [] => [⟨[], depth⟩]
  | e :: es =>
    let more := rows (e.depthBehind depth) es
    if e.isLineFeed then ⟨[], depth⟩ :: more
    else more.modifyHead fun row => ⟨e :: row.elements, row.depth⟩

/-- Elements became tokens. Each token holds elements of one part and is of a kind for them, and a
word of code is one token up to what follows it. -/
inductive ReadElements : List Element → List Token → Prop
  | nil : ReadElements [] []
  | piece {es rest : List Element} {part : Part} {kind : TokenKind} {tokens : List Token}
      (ne_nil : es ≠ []) (same : ∀ e ∈ es, e.part = part) (kind_mem : kind ∈ part.kinds)
      (whole : part = .word → ∀ e ∈ rest.head?, e.part ≠ .word) (more : ReadElements rest tokens) :
      ReadElements (es ++ rest) (⟨kind, textOf es⟩ :: tokens)

/-- A line became its tokens, and behind it the state knows the open placeholders. -/
structure Row.ReadAs (row : Row) (result : LineTokens State) : Prop where
  elements : ReadElements row.elements result.tokens
  depth : result.outbound.placeholderDepth = row.depth

end Highlight.JavaScript
