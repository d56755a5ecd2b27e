/-! # Line differences

The differences between two lists of lines are found in one pass that never goes back. Where the
heads differ, lines were added if the previous head comes later in the current list, were removed
if the current head comes later in the previous list, and otherwise the head was modified.
-/
namespace Highlight.Diff

inductive Entry where
  /-- One line of each list, and they are equal. -/
  | same
  /-- A line of the current list alone. -/
  | added
  /-- A line of the previous list alone. -/
  | removed
  /-- One line of each list, edited in place. -/
  | modified
  deriving DecidableEq, Repr

namespace Entry

def takesPrevious : Entry → Bool
  | .added => false
  | _ => true

def takesCurrent : Entry → Bool
  | .removed => false
  | _ => true

end Entry

section

variable {α : Type} [DecidableEq α]

/-- The part of a list before the first occurrence of an element. -/
def before (x : α) (xs : List α) : List α := xs.takeWhile (· != x)

/-- The list from the first occurrence of an element on. -/
def startingAt (x : α) (xs : List α) : List α := xs.dropWhile (· != x)

theorem length_startingAt_le (x : α) (xs : List α) : (startingAt x xs).length ≤ xs.length :=
  (List.dropWhile_sublist _).length_le

/-- Every line of both lists in an entry, in order. -/
def between : List α → List α → List Entry
  | [], cs => cs.map fun _ => .added
  | ps, [] => ps.map fun _ => .removed
  | p :: ps, c :: cs =>
    if p = c then .same :: between ps cs
    else if p ∈ cs then
      .added :: ((before p cs).map fun _ => .added) ++ between (p :: ps) (startingAt p cs)
    else if c ∈ ps then
      .removed :: ((before c ps).map fun _ => .removed) ++ between (startingAt c ps) (c :: cs)
    else .modified :: between ps cs
termination_by ps cs => ps.length + cs.length
decreasing_by
  · simp; omega
  · have := length_startingAt_le p cs
    simp; omega
  · have := length_startingAt_le c ps
    simp; omega
  · simp; omega

end

structure Stats where
  same : Nat
  added : Nat
  removed : Nat
  modified : Nat
  deriving DecidableEq, Repr

def Stats.ofEntries (es : List Entry) : Stats where
  same := es.count .same
  added := es.count .added
  removed := es.count .removed
  modified := es.count .modified

end Highlight.Diff
