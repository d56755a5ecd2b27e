import Highlight.Proofs.Diff.Replay
/-! # The pass over two lists

The diff as a loop with one cursor in each list. A turn compares the lines under the cursors and
moves at least one of them on, sometimes over a whole run of lines. The loop ends for all lists, and
its entries are the diff. Replayed with two cursors, they take all lines of both lists; where they
say that a line is the same, it is, and where they say that a line was modified, neither text comes
back in the other list.
-/
namespace Highlight.Diff

variable {α : Type} [DecidableEq α]

/-- What one turn reads, and where it leaves the cursors. -/
structure Turn where
  entries : List Entry
  previous : Nat
  current : Nat

/-- The turn at two cursors. A head is looked for behind the other one, at its nearest place. -/
def turn (ps cs : List α) (i j : Nat) : Turn :=
  match ps[i]?, cs[j]? with
  | none, _ => ⟨[.added], i, j + 1⟩
  | some _, none => ⟨[.removed], i + 1, j⟩
  | some p, some c =>
    if p = c then ⟨[.same], i + 1, j + 1⟩
    else
      match (cs.drop (j + 1)).idxOf? p with
      | some found => ⟨List.replicate (found + 1) .added, i, j + 1 + found⟩
      | none =>
        match (ps.drop (i + 1)).idxOf? c with
        | some found => ⟨List.replicate (found + 1) .removed, i + 1 + found, j⟩
        | none => ⟨[.modified], i + 1, j + 1⟩

/-- The turns from two cursors on, until both lists are used up, read the entries. -/
inductive Turns (ps cs : List α) : Nat → Nat → List Entry → Prop
  | done {i j : Nat} (used : ps.length ≤ i ∧ cs.length ≤ j) : Turns ps cs i j []
  | next {i j : Nat} {es : List Entry} (more : i < ps.length ∨ j < cs.length)
      (rest : Turns ps cs (turn ps cs i j).previous (turn ps cs i j).current es) :
      Turns ps cs i j ((turn ps cs i j).entries ++ es)

variable {ps cs : List α} {i j : Nat}

private theorem nearest_of_idxOf? {x : α} {xs : List α} {n : Nat} (h : xs.idxOf? x = some n) :
    x ∈ xs ∧ (before x xs).length = n ∧ startingAt x xs = xs.drop n := by
  obtain ⟨hn, hindex⟩ := List.findIdx?_eq_some_iff_findIdx_eq.mp h
  have hnot : (fun y => !(y != x)) = (· == x) := by simp [bne]
  obtain ⟨hlt, hget, -⟩ := List.idxOf?_eq_some_iff.mp h
  refine ⟨hget ▸ List.getElem_mem hlt, ?_, ?_⟩
  · rw [before, List.takeWhile_eq_take_findIdx_not, hnot, hindex,
      List.length_take_of_le (Nat.le_of_lt hn)]
  · rw [startingAt, List.dropWhile_eq_drop_findIdx_not, hnot, hindex]

private theorem turn_reads (more : i < ps.length ∨ j < cs.length) :
    between (ps.drop i) (cs.drop j) = (turn ps cs i j).entries ++
        between (ps.drop (turn ps cs i j).previous) (cs.drop (turn ps cs i j).current) ∧
      (ps.length - (turn ps cs i j).previous) + (cs.length - (turn ps cs i j).current) <
        (ps.length - i) + (cs.length - j) := by
  rw [turn]
  cases hp : ps[i]? with
  | none =>
    have hi : ps.length ≤ i := List.getElem?_eq_none_iff.mp hp
    have hj : j < cs.length := more.resolve_left (Nat.not_lt_of_le hi)
    dsimp only
    rw [List.drop_eq_nil_of_le hi, List.drop_eq_getElem_cons hj, between, between]
    exact ⟨rfl, by omega⟩
  | some p =>
    obtain ⟨hi, rfl⟩ := List.getElem?_eq_some_iff.mp hp
    cases hc : cs[j]? with
    | none =>
      have hj : cs.length ≤ j := List.getElem?_eq_none_iff.mp hc
      dsimp only
      rw [List.drop_eq_nil_of_le hj, List.drop_eq_getElem_cons hi, between_nil, between_nil]
      exact ⟨rfl, by omega⟩
    | some c =>
      obtain ⟨hj, rfl⟩ := List.getElem?_eq_some_iff.mp hc
      dsimp only
      rw [List.drop_eq_getElem_cons hi, List.drop_eq_getElem_cons hj, between]
      by_cases heq : ps[i] = cs[j]
      · rw [if_pos heq, if_pos heq]
        exact ⟨rfl, by dsimp only; omega⟩
      rw [if_neg heq, if_neg heq]
      cases hadded : (cs.drop (j + 1)).idxOf? ps[i] with
      | some found =>
        obtain ⟨hmem, hlength, hstart⟩ := nearest_of_idxOf? hadded
        rw [if_pos hmem, hstart, List.drop_drop, List.map_const', hlength, ← List.replicate_succ]
        rw [← List.drop_eq_getElem_cons hi]
        exact ⟨rfl, by dsimp only; omega⟩
      | none =>
        rw [if_neg (List.idxOf?_eq_none_iff.mp hadded)]
        cases hremoved : (ps.drop (i + 1)).idxOf? cs[j] with
        | some found =>
          obtain ⟨hmem, hlength, hstart⟩ := nearest_of_idxOf? hremoved
          rw [if_pos hmem, hstart, List.drop_drop, List.map_const', hlength, ← List.replicate_succ]
          rw [← List.drop_eq_getElem_cons hj]
          exact ⟨rfl, by dsimp only; omega⟩
        | none =>
          rw [if_neg (List.idxOf?_eq_none_iff.mp hremoved)]
          exact ⟨rfl, by dsimp only; omega⟩

/-- The loop ends from any two cursors, and reads the diff of what is behind them. -/
theorem turns_between (ps cs : List α) (i j : Nat) :
    Turns ps cs i j (between (ps.drop i) (cs.drop j)) := by
  generalize hleft : (ps.length - i) + (cs.length - j) = left
  induction left using Nat.strongRecOn generalizing i j with
  | ind left ih =>
    by_cases more : i < ps.length ∨ j < cs.length
    · obtain ⟨hreads, hless⟩ := turn_reads more
      rw [hreads]
      exact .next more (ih _ (hleft ▸ hless) _ _ rfl)
    · have used : ps.length ≤ i ∧ cs.length ≤ j := by omega
      rw [List.drop_eq_nil_of_le used.1, List.drop_eq_nil_of_le used.2, between]
      exact .done used

private theorem Turns.unique {es es' : List Entry} (h : Turns ps cs i j es)
    (h' : Turns ps cs i j es') : es = es' := by
  induction h generalizing es' with
  | done used =>
    cases h' with
    | done => rfl
    | next more => omega
  | next more _ ih =>
    cases h' with
    | done used => omega
    | next _ rest => rw [ih rest]

/-- The pass with two cursors ends and reads the diff. Replayed, the diff takes every line of both
lists. A line that it calls the same is the same in both; lines that it calls modified differ, and
neither comes back behind the other one. -/
theorem replayed_with_cursors (ps cs : List α) :
    (∀ es, Turns ps cs 0 0 es ↔ es = between ps cs) ∧
      (between ps cs).countP Entry.takesPrevious = ps.length ∧
      (between ps cs).countP Entry.takesCurrent = cs.length ∧
      ∀ earlier e later, between ps cs = earlier ++ e :: later →
        let i := earlier.countP Entry.takesPrevious
        let j := earlier.countP Entry.takesCurrent
        (e = .same → ∃ x, ps[i]? = some x ∧ cs[j]? = some x) ∧
          (e = .modified → ∃ p c, ps[i]? = some p ∧ cs[j]? = some c ∧ p ≠ c ∧
            p ∉ cs.drop (j + 1) ∧ c ∉ ps.drop (i + 1)) := by
  have hreplay : Replay (between ps cs) ps cs := between_replay ps cs
  have hturns : Turns ps cs 0 0 (between ps cs) := turns_between ps cs 0 0
  refine ⟨?_, hreplay.countP_takesPrevious, hreplay.countP_takesCurrent, ?_⟩
  · intro es
    constructor
    · intro hread
      exact hread.unique hturns
    · rintro rfl
      exact hturns
  · intro earlier e later hes
    rw [hes] at hreplay
    have hbehind := hreplay.behind
    constructor
    · rintro rfl
      simpa only [List.head?_drop] using hbehind.head_same
    · rintro rfl
      simpa only [List.head?_drop, List.tail_drop] using hbehind.head_modified

/-- A line is edited, and another one added below it, between lines that are the same. -/
theorem replayed_with_cursors_edited :
    let ps : List (List Char) := [['a'], ['b'], ['d']]
    let cs : List (List Char) := [['a'], ['x'], ['c'], ['d']]
    between ps cs = [.same] ++ .modified :: [.added, .same] ∧
      (∃ p c, ps[1]? = some p ∧ cs[1]? = some c ∧ p ≠ c ∧ p ∉ cs.drop 2 ∧ c ∉ ps.drop 2) ∧
      between ps cs = [.same, .modified, .added] ++ .same :: [] ∧
      ∃ x, ps[2]? = some x ∧ cs[3]? = some x := by
  intro ps cs
  have hedited : between ps cs = [.same] ++ .modified :: [.added, .same] := by decide +kernel
  have hsame : between ps cs = [.same, .modified, .added] ++ .same :: [] := hedited
  obtain ⟨-, -, -, hpairs⟩ := replayed_with_cursors ps cs
  exact ⟨hedited, (hpairs _ _ _ hedited).2 rfl, hsame, (hpairs _ _ _ hsame).1 rfl⟩

end Highlight.Diff
