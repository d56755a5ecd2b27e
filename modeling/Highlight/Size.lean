/-! # Sizes

Sizes and indices have an upper end, where addition stops.
-/
namespace Highlight

def maxSize : Nat := UInt64.size - 1

/-- Addition that stops at the largest index. -/
def addSize (m n : Nat) : Nat := min (m + n) maxSize

end Highlight
