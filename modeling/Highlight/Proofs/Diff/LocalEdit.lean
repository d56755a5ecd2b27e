import Highlight.Proofs.Diff.Replay
import Mathlib.Data.List.TakeWhile
/-! # Local edits

The diff of a list of lines with the same list after one line is deleted or replaced. Lines above
the edit are the same. From there on the diff looks for the two heads in all that follows, so it
says no more than what happened exactly if neither text comes back below the edit. In a run of
equal lines it makes no difference which one was deleted.
-/
namespace Highlight.Diff

section

variable {α : Type}

private theorem Stats.ofEntries_same_append (ls : List α) (es : List Entry) :
    Stats.ofEntries ((ls.map fun _ => .same) ++ es) =
      { Stats.ofEntries es with same := ls.length + (Stats.ofEntries es).same } := by
  rw [List.map_const']
  simp [ofEntries, List.count_append, List.count_replicate]

private theorem Stats.ofEntries_cons_same (e : Entry) (ls : List α) :
    Stats.ofEntries (e :: ls.map fun _ => .same) =
      { Stats.ofEntries [e] with same := ls.length + (Stats.ofEntries [e]).same } := by
  rw [← ofEntries_same_append]
  simp [ofEntries, List.count_append, List.count_cons]

private theorem cons_eq_run_append [DecidableEq α] (x : α) (below : List α) :
    x :: below = below.takeWhile (· = x) ++ x :: below.dropWhile (· = x) := by
  have hrun : below.takeWhile (· = x) = List.replicate (below.takeWhile (· = x)).length x :=
    List.eq_replicate_of_mem fun y hy => by simpa using List.mem_takeWhile_imp hy
  calc
    x :: below = x :: (below.takeWhile (· = x) ++ below.dropWhile (· = x)) := by
      rw [List.takeWhile_append_dropWhile]
    _ = below.takeWhile (· = x) ++ x :: below.dropWhile (· = x) := by
      rw [hrun, ← List.cons_append, ← List.replicate_succ, List.replicate_succ',
        List.append_assoc]
      rfl

end

section

variable {α : Type} [DecidableEq α]

private theorem between_append (above ps cs : List α) :
    between (above ++ ps) (above ++ cs) = (above.map fun _ => .same) ++ between ps cs := by
  induction above with
  | nil => rfl
  | cons a above ih =>
    rw [List.cons_append, List.cons_append, between, if_pos rfl, ih]
    rfl

theorem between_self (ps : List α) : between ps ps = ps.map fun _ => .same := by
  have h := between_append ps [] []
  rwa [List.append_nil, between, List.map_nil, List.append_nil] at h

private theorem between_deleted (x : α) (below : List α) :
    between (x :: below) below = ((below.takeWhile (· = x)).map fun _ => .same) ++
      between (x :: below.dropWhile (· = x)) (below.dropWhile (· = x)) := by
  have hbelow : below = below.takeWhile (· = x) ++ below.dropWhile (· = x) :=
    List.takeWhile_append_dropWhile.symm
  calc
    between (x :: below) below =
        between (below.takeWhile (· = x) ++ x :: below.dropWhile (· = x))
          (below.takeWhile (· = x) ++ below.dropWhile (· = x)) := by
      rw [← cons_eq_run_append, ← hbelow]
    _ = _ := between_append _ _ _

private theorem between_deleted_last {x : α} {rest : List α} (h : x ∉ rest) :
    between (x :: rest) rest = .removed :: rest.map fun _ => .same := by
  cases rest with
  | nil => exact between_nil [x]
  | cons b rest =>
    rw [between, if_neg (List.ne_of_not_mem_cons h), if_neg (List.not_mem_of_not_mem_cons h),
      if_pos List.mem_cons_self]
    have hbefore : before b (b :: rest) = [] := by simp [before]
    have hnearest : startingAt b (b :: rest) = b :: rest := by simp [startingAt]
    rw [hbefore, hnearest, between_self]
    rfl

private theorem added_mem_between_deleted {x b : α} {rest : List α} (hne : x ≠ b) (h : x ∈ rest) :
    .added ∈ between (x :: b :: rest) (b :: rest) := by
  rw [between, if_neg hne, if_pos h]
  exact List.mem_cons_self

private theorem between_replaced {x y : α} {below : List α} (hne : x ≠ y) (hx : x ∉ below)
    (hy : y ∉ below) :
    between (x :: below) (y :: below) = .modified :: below.map fun _ => .same := by
  rw [between, if_neg hne, if_neg hx, if_neg hy, between_self]

private theorem head_between_replaced {x y : α} {below : List α} (hne : x ≠ y)
    (h : x ∈ below ∨ y ∈ below) :
    .added ∈ between (x :: below) (y :: below) ∨ .removed ∈ between (x :: below) (y :: below) := by
  by_cases hx : x ∈ below
  · rw [between, if_neg hne, if_pos hx]
    exact .inl List.mem_cons_self
  · rw [between, if_neg hne, if_neg hx, if_pos (h.resolve_left hx)]
    exact .inr List.mem_cons_self

/-- The deletion of a line is read as one removed line among lines that are the same exactly if its
text does not come back behind the lines right below that are equal to it. -/
theorem deletion_exact_iff (above : List α) (x : α) (below : List α) :
    Stats.ofEntries (between (above ++ x :: below) (above ++ below)) =
        ⟨above.length + below.length, 0, 1, 0⟩ ↔
      x ∉ below.dropWhile (· = x) := by
  rw [between_append, between_deleted, Stats.ofEntries_same_append, Stats.ofEntries_same_append]
  constructor
  · intro hexact hx
    cases hrest : below.dropWhile (· = x) with
    | nil => simp [hrest] at hx
    | cons b rest =>
      have hne : x ≠ b := by
        have hhead := List.head_dropWhile_not (· = x) (l := below) (by simp [hrest])
        simp only [hrest, List.head_cons, decide_eq_false_iff_not] at hhead
        exact Ne.symm hhead
      rw [hrest] at hx hexact
      have hadded := added_mem_between_deleted hne (List.mem_of_ne_of_mem hne hx)
      have hnone : (between (x :: b :: rest) (b :: rest)).count .added = 0 :=
        congrArg Stats.added hexact
      exact List.count_eq_zero.mp hnone hadded
  · intro hx
    have hlength : (below.takeWhile (· = x)).length + (below.dropWhile (· = x)).length =
        below.length := by
      rw [← List.length_append, List.takeWhile_append_dropWhile]
    rw [between_deleted_last hx, Stats.ofEntries_cons_same, ← hlength]
    rfl

/-- The replacement of a line is read as one modified line among lines that are the same exactly if
neither its old text nor its new one comes back below. -/
theorem replacement_exact_iff (above : List α) {x y : α} (hne : x ≠ y) (below : List α) :
    Stats.ofEntries (between (above ++ x :: below) (above ++ y :: below)) =
        ⟨above.length + below.length, 0, 0, 1⟩ ↔
      x ∉ below ∧ y ∉ below := by
  rw [between_append, Stats.ofEntries_same_append]
  constructor
  · intro hexact
    by_contra hback
    have hnoAdded : (between (x :: below) (y :: below)).count .added = 0 :=
      congrArg Stats.added hexact
    have hnoRemoved : (between (x :: below) (y :: below)).count .removed = 0 :=
      congrArg Stats.removed hexact
    have hcomes : x ∈ below ∨ y ∈ below := by
      by_contra hnone
      exact hback (not_or.mp hnone)
    rcases head_between_replaced hne hcomes with hadded | hremoved
    · exact List.count_eq_zero.mp hnoAdded hadded
    · exact List.count_eq_zero.mp hnoRemoved hremoved
  · rintro ⟨hx, hy⟩
    rw [between_replaced hne hx hy, Stats.ofEntries_cons_same]
    rfl

/-- The diff reports a line that was deleted, or replaced by another, as that and nothing more
exactly if the search for it does not find its text again: for a deletion that of the line, behind
the lines right below that are equal to it; for a replacement the old text or the new one. -/
theorem local_edit_exact_iff (lines : List α) {i : Nat} (hi : i < lines.length) :
    let below := lines.drop (i + 1)
    (Stats.ofEntries (between lines (lines.eraseIdx i)) = ⟨lines.length - 1, 0, 1, 0⟩ ↔
        lines[i] ∉ below.dropWhile (· = lines[i])) ∧
      ∀ y, y ≠ lines[i] →
        (Stats.ofEntries (between lines (lines.set i y)) = ⟨lines.length - 1, 0, 0, 1⟩ ↔
          lines[i] ∉ below ∧ y ∉ below) := by
  intro below
  have hlines : lines = lines.take i ++ lines[i] :: below := by
    rw [List.getElem_cons_drop, List.take_append_drop]
  have hlength : (lines.take i).length + below.length = lines.length - 1 := by
    rw [List.length_take, List.length_drop]
    omega
  constructor
  · have hdeletion := deletion_exact_iff (lines.take i) lines[i] below
    rwa [← hlines, hlength, ← List.eraseIdx_eq_take_drop_succ] at hdeletion
  · intro y hne
    have hreplacement := replacement_exact_iff (lines.take i) (Ne.symm hne) below
    have hset : lines.take i ++ y :: below = lines.set i y := by
      rw [List.set_eq_take_append_cons_drop, if_pos hi]
    rwa [← hlines, hlength, hset] at hreplacement

end

/-- A blank line that another one follows is deleted, and one is filled that none follows. -/
theorem local_edit_exact_iff_blank :
    let lines : List (List Char) := [['a'], [], [], ['b']]
    1 < lines.length ∧ 2 < lines.length ∧ ['c'] ≠ lines[2] ∧
      Stats.ofEntries (between lines (lines.eraseIdx 1)) = ⟨3, 0, 1, 0⟩ ∧
      Stats.ofEntries (between lines (lines.set 2 ['c'])) = ⟨3, 0, 0, 1⟩ := by
  intro lines
  have hdeleted : 1 < lines.length := by decide
  have hfilled : 2 < lines.length := by decide
  have hne : ['c'] ≠ lines[2] := List.cons_ne_nil _ _
  refine ⟨hdeleted, hfilled, hne, ?_, ?_⟩
  · exact (local_edit_exact_iff lines hdeleted).1.mpr (by decide +revert)
  · exact ((local_edit_exact_iff lines hfilled).2 ['c'] hne).mpr (by decide +revert)

/-- The first of three lines is deleted or replaced, and the third has its text: the diff reads the
second line as added above it, and what is left of the list as removed. -/
theorem local_edit_misread :
    let lines : List (List Char) := [['a'], ['b'], ['a']]
    between lines (lines.eraseIdx 0) = [.added, .same, .removed, .removed] ∧
      Stats.ofEntries (between lines (lines.eraseIdx 0)) ≠ ⟨2, 0, 1, 0⟩ ∧
      between lines (lines.set 0 ['c']) = [.added, .added, .same, .removed, .removed] ∧
      Stats.ofEntries (between lines (lines.set 0 ['c'])) ≠ ⟨2, 0, 0, 1⟩ := by
  decide +kernel

end Highlight.Diff
