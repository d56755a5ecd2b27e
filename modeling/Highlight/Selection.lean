/-! # Selections

Ranges of character offsets. A selection as reported from outside may be reversed; `between`
builds one that is not.
-/
namespace Highlight

structure Selection where
  start : Nat := 0
  stop : Nat := 0
  deriving DecidableEq, Repr

namespace Selection

def between (a b : Nat) : Selection := ⟨min a b, max a b⟩

def caret (offset : Nat) : Selection := ⟨offset, offset⟩

def isEmpty (s : Selection) : Bool := s.stop ≤ s.start

def length (s : Selection) : Nat := s.stop - s.start

/-- The selection with both ends moved into a text of `n` characters. -/
def clamp (s : Selection) (n : Nat) : Selection := between (min s.start n) (min s.stop n)

theorem start_le_stop_between (a b : Nat) : (between a b).start ≤ (between a b).stop := by
  simp only [between]
  omega

theorem stop_clamp_le (s : Selection) (n : Nat) : (s.clamp n).stop ≤ n := by
  simp only [clamp, between]
  omega

end Selection
end Highlight
