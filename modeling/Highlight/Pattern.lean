import Highlight.Text
/-! # Patterns

A pattern is tried at the start of a text and answers the length of its match. Repetition takes
all it can and never gives back, and a choice settles for its first alternative that matches; no
pattern of this library needs a second try.
-/
namespace Highlight

/-- The number of characters matched at the start of a text, if any. -/
abbrev Pattern := Text → Option Nat

namespace Pattern

def one (p : Char → Bool) : Pattern
  | [] => none
  | c :: _ => if p c then some 1 else none

def char (c : Char) : Pattern := one (· == c)

/-- As many characters of a class as there are, perhaps none. -/
def many (p : Char → Bool) : Pattern := fun s => some (s.takeWhile p).length

/-- At least `lo` and at most `hi` characters of a class. -/
def between (lo hi : Nat) (p : Char → Bool) : Pattern := fun s =>
  let n := ((s.take hi).takeWhile p).length
  if lo ≤ n then some n else none

def literal (t : Text) : Pattern := fun s => if t.isPrefixOf s then some t.length else none

def finish : Pattern := fun s => if s.isEmpty then some 0 else none

def seq (p q : Pattern) : Pattern := fun s => do
  let n ← p s
  let m ← q (s.drop n)
  some (n + m)

/-- The second pattern only where the first one fails. -/
def alt (p q : Pattern) : Pattern := fun s => p s <|> q s

def optional (p : Pattern) : Pattern := fun s => some ((p s).getD 0)

/-- At least one character of a class, as many as there are. -/
def many1 (p : Char → Bool) : Pattern := seq (one p) (many p)

def all : List Pattern → Pattern
  | [] => fun _ => some 0
  | p :: ps => seq p (all ps)

def any : List Pattern → Pattern
  | [] => fun _ => none
  | p :: ps => alt p (any ps)

end Pattern

/-- A pattern with the text it was written as. A malformed one has no pattern and never matches. -/
structure Rule where
  source : Text
  pattern? : Option Pattern

namespace Rule

def isValid (r : Rule) : Bool := r.pattern?.isSome

def pattern (r : Rule) : Pattern := r.pattern?.getD fun _ => none

end Rule
end Highlight
