import Highlight.Patch
import Highlight.Viewport
/-! # Display surface

The surface that shows a document holds the text that the user edits, the selection and the
viewport as it reports them, and the lines rendered from the scripts it has received.
-/
namespace Highlight

structure Surface (σ : Type) where
  text : Text := []
  /-- As reported, perhaps reversed or outside the text. -/
  selection : Selection := {}
  viewport : Viewport := .unmeasured
  /-- The visible characters, where they do not follow from the viewport. -/
  visible? : Option Selection := none
  rendered : List (Line σ) := []
  /-- The scripts received, the last one first. -/
  received : List (List (Patch σ)) := []

namespace Surface

variable {σ : Type}

inductive Change where
  | text (text : Text)
  /-- Characters from an offset on give way to others. -/
  | splice (offset count : Nat) (insert : Text)
  | selection (selection : Selection)
  | viewport (viewport : Viewport)
  | visible (range? : Option Selection)

def change (s : Surface σ) : Change → Surface σ
  | .text text => { s with text }
  | .splice offset count insert =>
    { s with text := s.text.take offset ++ insert ++ s.text.drop (offset + count) }
  | .selection selection => { s with selection }
  | .viewport viewport => { s with viewport }
  | .visible visible? => { s with visible? }

def visibleRange (s : Surface σ) : Selection := s.visible?.getD (s.viewport.visibleRange s.text)

def receive (s : Surface σ) (script : List (Patch σ)) : Surface σ :=
  { s with
    rendered := Patch.applyAll id s.rendered script
    received := script :: s.received }

end Surface
end Highlight
