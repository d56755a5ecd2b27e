import Highlight.Size
/-! # Line windows

The range of lines that a pass renders in full, both ends included.
-/
namespace Highlight

structure Window where
  first : Nat
  last : Nat
  deriving DecidableEq, Repr

namespace Window

def between (a b : Nat) : Window := ⟨min a b, max a b⟩

/-- The lines between two and some more on either side. -/
def around (a b padding : Nat) : Window := ⟨min a b - padding, addSize (max a b) padding⟩

def everything : Window := ⟨0, maxSize⟩

def contains (w : Window) (index : Nat) : Bool := w.first ≤ index && index ≤ w.last

def isBelow (w : Window) (index : Nat) : Bool := w.last < index

def isAbove (w : Window) (index : Nat) : Bool := index < w.first

end Window
end Highlight
