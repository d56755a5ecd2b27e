import Highlight.Position
import Highlight.Selection
/-! # Viewports

Scroll measures of a display, in single precision, and the lines and characters that it shows.
-/
namespace Highlight

structure Viewport where
  scrollTop : Float32
  height : Float32
  /-- Height of one line; unknown before the first layout. -/
  lineHeight? : Option Float32

namespace Viewport

def unmeasured : Viewport := ⟨0, 0, none⟩

/-- A measure below zero, or none at all, counts as zero. -/
def atLeastZero (x : Float32) : Float32 := if 0 < x then x else 0

def lineAt (offset lineHeight : Float32) : Nat := (offset / lineHeight).floor.toUInt64.toNat

/-- The first and last visible line, whether or not the text has them. Without a usable line height
it is the first line alone. -/
def visibleLines (v : Viewport) : Nat × Nat :=
  match v.lineHeight? with
  | none => (0, 0)
  | some h =>
    if h.isFinite && 0 < h then
      let top := atLeastZero v.scrollTop
      let first := lineAt top h
      (first, max first (lineAt (top + atLeastZero v.height) h))
    else (0, 0)

/-- The characters from the start of the first visible line to the start of the last one. -/
def visibleRange (v : Viewport) (text : Text) : Selection :=
  let (first, last) := v.visibleLines
  .between (Position.toIndex ⟨first, 0⟩ text) (Position.toIndex ⟨last, 0⟩ text)

end Viewport
end Highlight
