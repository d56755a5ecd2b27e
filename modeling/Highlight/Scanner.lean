import Highlight.Pattern
import Highlight.Token
/-! # Line scanner

A cursor over one line. An operation that consumes remembers what it took as the last match,
which `emit` turns into a token; an operation that fails leaves no new scanner.
-/
namespace Highlight

/-- The line is what was consumed followed by the rest. -/
structure Scanner where
  consumed : Text := []
  rest : Text
  lastMatch : Text := []
  tokens : List Token := []
  deriving DecidableEq, Repr

namespace Scanner

def ofLine (line : Text) : Scanner := { rest := line }

/-- A scanner at the start of a text whose last match lies before that text. -/
def resume (lastMatch rest : Text) : Scanner := { rest, lastMatch }

def line (s : Scanner) : Text := s.consumed ++ s.rest

/-- Offset in bytes from the start of the line. -/
def position (s : Scanner) : Nat := s.consumed.utf8Size

def isDone (s : Scanner) : Bool := s.rest.isEmpty

def advance (s : Scanner) (n : Nat) : Scanner :=
  { s with
    consumed := s.consumed ++ s.rest.take n
    rest := s.rest.drop n
    lastMatch := s.rest.take n }

@[simp] theorem line_advance (s : Scanner) (n : Nat) : (s.advance n).line = s.line := by
  simp [line, advance]

def accept? (s : Scanner) (p : Pattern) : Option Scanner := (p s.rest).map s.advance

/-- Consumes a match if there is one. Where there is none, the last match stays as it was. -/
def accept (s : Scanner) (p : Pattern) : Scanner := (s.accept? p).getD s

/-- Consumes a match that is followed by a match of `ahead`, which stays. -/
def acceptBefore? (s : Scanner) (p ahead : Pattern) : Option Scanner := do
  let n ← p s.rest
  let _ ← ahead (s.rest.drop n)
  some (s.advance n)

/-- Consumes a text that is not empty. -/
def acceptText? (s : Scanner) (t : Text) : Option Scanner :=
  if t.isEmpty then none else s.accept? (.literal t)

def acceptAny? (s : Scanner) (ts : List Text) : Option Scanner := ts.findSome? s.acceptText?

def acceptChar? (s : Scanner) (c : Char) : Option Scanner := s.accept? (.char c)

def acceptOne? (s : Scanner) : Option Scanner := s.accept? (.one fun _ => true)

def peek? (s : Scanner) (p : Pattern) : Option Text := (p s.rest).map s.rest.take

/-- Consumes the characters that fit into `n` bytes. -/
def consume (s : Scanner) (n : Nat) : Scanner := s.advance (s.rest.takeBytes n).length

/-- Emits the last match, unless it is empty. -/
def emit (s : Scanner) (kind : TokenKind) : Scanner :=
  if s.lastMatch.isEmpty then s else { s with tokens := s.tokens ++ [⟨kind, s.lastMatch⟩] }

/-- Consumes `n` bytes for which another lexer has found the tokens. -/
def embed (s : Scanner) (n : Nat) (tokens : List Token) : Scanner :=
  let s := s.consume n
  { s with tokens := s.tokens ++ tokens }

def token? (s : Scanner) (kind : TokenKind) (p : Pattern) : Option Scanner :=
  (s.accept? p).map (·.emit kind)

def tokenBefore? (s : Scanner) (kind : TokenKind) (p ahead : Pattern) : Option Scanner :=
  (s.acceptBefore? p ahead).map (·.emit kind)

def tokenText? (s : Scanner) (kind : TokenKind) (t : Text) : Option Scanner :=
  (s.acceptText? t).map (·.emit kind)

def tokenAny? (s : Scanner) (kind : TokenKind) (ts : List Text) : Option Scanner :=
  (s.acceptAny? ts).map (·.emit kind)

def tokenChar? (s : Scanner) (kind : TokenKind) (c : Char) : Option Scanner :=
  (s.acceptChar? c).map (·.emit kind)

end Scanner
end Highlight
