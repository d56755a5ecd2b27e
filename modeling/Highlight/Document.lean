import Highlight.Position
/-! # Documents

Documents are kept as their lines. Offsets past the end stand for the end.
-/
namespace Highlight

structure Document where
  lines : List Text
  deriving DecidableEq, Repr

namespace Document

def ofText (text : Text) : Document := ⟨text.lines⟩

/-- Takes over another text. Nothing stays of the one before. -/
def setText (_ : Document) (text : Text) : Document := .ofText text

def toText (d : Document) : Text := Text.joinLines d.lines

def hasText (d : Document) (text : Text) : Bool := d.toText == text

def lineCount (d : Document) : Nat := d.lines.length

/-- Number of characters, line feeds included. -/
def length (d : Document) : Nat := d.lines.foldr (fun l n => l.length + n) 0 + (d.lineCount - 1)

def isEmpty (d : Document) : Bool := d.length == 0

def line? (d : Document) (index : Nat) : Option Text := d.lines[index]?

def positionInLines (index : Nat) : List Text → Position
  | [] => ⟨0, 0⟩
  | [l] => ⟨0, min index l.length⟩
  | l :: ls =>
    if index ≤ l.length then ⟨0, index⟩
    else
      let p := positionInLines (index - (l.length + 1)) ls
      ⟨p.line + 1, p.column⟩

def position (d : Document) (index : Nat) : Position := positionInLines index d.lines

def lineOf (d : Document) (index : Nat) : Nat := (d.position index).line

/-- Digits of the largest line number, for a gutter of at least three. -/
def gutterWidth (d : Document) : Nat := max 3 (Nat.toDigits 10 d.lineCount).length

end Document
end Highlight
