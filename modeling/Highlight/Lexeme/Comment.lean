import Highlight.Scanner
/-! # Comments

Comments that run to the end of the line and comments between two marks, which may run over
several lines.
-/
namespace Highlight.Lexeme

open Pattern

def lineComment : Pattern := seq (literal "//".toList) (many (· != '\n'))

/-- What a comment that `close` ends holds: pieces without the first character of `close`, and that
character alone. -/
def commentBody (close : Text) : Pattern :=
  let isMark := fun c => close.head? == some c
  alt (many1 (!isMark ·)) (one isMark)

/-- One step inside a comment that `close` ends; tells whether this was the end. -/
def scanComment (close : Text) (s : Scanner) : Scanner × Bool :=
  match s.tokenText? .comment close with
  | some s => (s, true)
  | none => ((s.accept (commentBody close)).emit .comment, false)

def blockOpen : Text := "/*".toList

def blockClose : Text := "*/".toList

end Highlight.Lexeme
