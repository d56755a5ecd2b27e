import Highlight.Proofs.Diff.Replay
/-! # Lines that a diff pairs

Which line of the previous list a diff pairs with which line of the current one as equal, told by
the number of lines of either list that the entries before have taken.
-/
namespace Highlight.Diff

/-- The entries pair line `p` of the previous list with line `c` of the current list as equal. -/
def Pairs (es : List Entry) (p c : Nat) : Prop :=
  ∃ earlier later, es = earlier ++ .same :: later ∧
    earlier.countP Entry.takesPrevious = p ∧ earlier.countP Entry.takesCurrent = c

private theorem not_pairs_nil (p c : Nat) : ¬ Pairs [] p c := by
  rintro ⟨earlier, later, h, -⟩
  simp at h

theorem pairs_cons {e : Entry} {es : List Entry} {p c : Nat} :
    Pairs (e :: es) p c ↔ (e = .same ∧ p = 0 ∧ c = 0) ∨
      ∃ p' c', Pairs es p' c' ∧ p = p' + (if e.takesPrevious then 1 else 0) ∧
        c = c' + (if e.takesCurrent then 1 else 0) := by
  constructor
  · rintro ⟨earlier, later, h, rfl, rfl⟩
    cases earlier with
    | nil =>
      obtain ⟨rfl, -⟩ := List.cons.inj h
      exact .inl ⟨rfl, rfl, rfl⟩
    | cons e' earlier =>
      obtain ⟨rfl, htail⟩ := List.cons.inj h
      exact .inr ⟨_, _, ⟨earlier, later, htail, rfl, rfl⟩, List.countP_cons, List.countP_cons⟩
  · rintro (⟨rfl, rfl, rfl⟩ | ⟨p', c', ⟨earlier, later, rfl, rfl, rfl⟩, rfl, rfl⟩)
    · exact ⟨[], es, rfl, rfl, rfl⟩
    · exact ⟨e :: earlier, later, rfl, List.countP_cons, List.countP_cons⟩

/-- A line of the current list is paired at most once. -/
theorem Pairs.unique {es : List Entry} {p p' c : Nat} (h : Pairs es p c) (h' : Pairs es p' c) :
    p = p' := by
  induction es generalizing p p' c with
  | nil => exact absurd h (not_pairs_nil p c)
  | cons e es ih =>
    rcases pairs_cons.mp h with ⟨rfl, rfl, rfl⟩ | ⟨q, d, hq, rfl, rfl⟩
    · rcases pairs_cons.mp h' with ⟨-, rfl, -⟩ | ⟨q', d', hq', rfl, hd⟩
      · rfl
      · simp [Entry.takesCurrent] at hd
    · rcases pairs_cons.mp h' with ⟨rfl, rfl, hd⟩ | ⟨q', d', hq', rfl, hd⟩
      · simp [Entry.takesCurrent] at hd
      · obtain rfl : d = d' := Nat.add_right_cancel hd
        rw [ih hq hq']

end Highlight.Diff
