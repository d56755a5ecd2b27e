import Highlight.Value
/-! # Render modes

How much a render pass reads again. Requests of several modes come to the strongest of them.
-/
namespace Highlight

inductive RenderMode where
  /-- Every line of the document. -/
  | full
  /-- Lines that are new or dirty. -/
  | partly
  /-- These and all visible lines. -/
  | forceVisible
  /-- The same lines, the dirty ones among the visible counted apart. -/
  | forceVisibleAndDirty
  deriving DecidableEq, Repr

namespace RenderMode

def all : List RenderMode := [.full, .partly, .forceVisible, .forceVisibleAndDirty]

def name : RenderMode → Text
  | .full => "full".toList
  | .partly => "partial".toList
  | .forceVisible => "forceVisible".toList
  | .forceVisibleAndDirty => "forceVisibleAndDirty".toList

def ofName? (n : Text) : Option RenderMode := all.find? (·.name == n)

def ofValue? (v : Value) : Option RenderMode := v.choice?.bind ofName?

/-- The mode of a pass that nothing else is asked of. -/
def default : RenderMode := .partly

def strength : RenderMode → Nat
  | .partly => 0
  | .forceVisible => 1
  | .forceVisibleAndDirty => 2
  | .full => 3

def merge (m n : RenderMode) : RenderMode := if m.strength < n.strength then n else m

/-- The previous rendering of a line that was not edited may serve again. -/
def reuses : RenderMode → (visible dirty : Bool) → Bool
  | .full, _, _ => false
  | .partly, _, _ => true
  | .forceVisible, visible, _ => !visible
  | .forceVisibleAndDirty, visible, dirty => !visible || dirty

end RenderMode
end Highlight
