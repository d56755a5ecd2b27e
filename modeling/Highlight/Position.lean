import Highlight.Text
/-! # Positions in a text

A position is a line and a column, both counted from zero and in characters.
-/
namespace Highlight

structure Position where
  line : Nat
  column : Nat
  deriving DecidableEq, Repr

namespace Position

def lineNumber (p : Position) : Nat := p.line + 1

def columnNumber (p : Position) : Nat := p.column + 1

def step (p : Position) (c : Char) : Position :=
  if c = '\n' then ⟨p.line + 1, 0⟩ else ⟨p.line, p.column + 1⟩

/-- The position before the character at an offset; past the end it is that of the end. -/
def ofIndex (text : Text) (index : Nat) : Position := (text.take index).foldl step ⟨0, 0⟩

def indexInLines (p : Position) : List Text → Nat
  | [] => 0
  | [l] => min p.column l.length
  | l :: ls =>
    match p.line with
    | 0 => min p.column l.length
    | n + 1 => l.length + 1 + indexInLines ⟨n, p.column⟩ ls

/-- Offset of a position. A column past the end of its line stands for that end, and a line past
the last one for the last line. -/
def toIndex (p : Position) (text : Text) : Nat := p.indexInLines text.lines

end Position
end Highlight
