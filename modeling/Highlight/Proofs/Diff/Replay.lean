import Highlight.Diff
/-! # Replaying a diff

The entries of a diff, read with one cursor in each list, take every line of both lists in order
and say of each line what happened to it.
-/
namespace Highlight.Diff

section

variable {α : Type}

/-- The entries tell how the second list came from the first. A line counts as modified only where
neither of the two lines comes back later in the other list. -/
inductive Replay : List Entry → List α → List α → Prop
  | done : Replay [] [] []
  | same {es ps cs} (x : α) (rest : Replay es ps cs) : Replay (.same :: es) (x :: ps) (x :: cs)
  | modified {es ps cs} {p c : α} (differ : p ≠ c) (gone : p ∉ cs) (fresh : c ∉ ps)
      (rest : Replay es ps cs) : Replay (.modified :: es) (p :: ps) (c :: cs)
  | added {es ps cs} (c : α) (rest : Replay es ps cs) : Replay (.added :: es) ps (c :: cs)
  | removed {es ps cs} (p : α) (rest : Replay es ps cs) : Replay (.removed :: es) (p :: ps) cs

private theorem Replay.allAdded {es : List Entry} {ps cs : List α} (added : List α)
    (rest : Replay es ps cs) :
    Replay ((added.map fun _ => .added) ++ es) ps (added ++ cs) := by
  induction added with
  | nil => exact rest
  | cons c added ih => exact .added c ih

private theorem Replay.allRemoved {es : List Entry} {ps cs : List α} (removed : List α)
    (rest : Replay es ps cs) :
    Replay ((removed.map fun _ => .removed) ++ es) (removed ++ ps) cs := by
  induction removed with
  | nil => exact rest
  | cons p removed ih => exact .removed p ih

theorem Replay.countP_takesPrevious {es : List Entry} {ps cs : List α} (h : Replay es ps cs) :
    es.countP Entry.takesPrevious = ps.length := by
  induction h with
  | done => rfl
  | added _ _ ih => rwa [List.countP_cons_of_neg (by decide)]
  | same _ _ ih | modified _ _ _ _ ih | removed _ _ ih =>
    rw [List.countP_cons_of_pos rfl, ih, List.length_cons]

theorem Replay.countP_takesCurrent {es : List Entry} {ps cs : List α} (h : Replay es ps cs) :
    es.countP Entry.takesCurrent = cs.length := by
  induction h with
  | done => rfl
  | removed _ _ ih => rwa [List.countP_cons_of_neg (by decide)]
  | same _ _ ih | modified _ _ _ _ ih | added _ _ ih =>
    rw [List.countP_cons_of_pos rfl, ih, List.length_cons]

theorem Replay.behind {earlier later : List Entry} {ps cs : List α}
    (h : Replay (earlier ++ later) ps cs) :
    Replay later (ps.drop (earlier.countP Entry.takesPrevious))
      (cs.drop (earlier.countP Entry.takesCurrent)) := by
  induction earlier generalizing ps cs with
  | nil => exact h
  | cons e earlier ih =>
    rw [List.cons_append] at h
    cases h with
    | same _ rest | modified _ _ _ rest | added _ rest | removed _ rest =>
      simpa [List.countP_cons, Entry.takesPrevious, Entry.takesCurrent] using ih rest

theorem Replay.head_same {es : List Entry} {ps cs : List α} (h : Replay (.same :: es) ps cs) :
    ∃ x, ps.head? = some x ∧ cs.head? = some x := by
  cases h with
  | same x _ => exact ⟨x, rfl, rfl⟩

theorem Replay.head_modified {es : List Entry} {ps cs : List α}
    (h : Replay (.modified :: es) ps cs) :
    ∃ p c, ps.head? = some p ∧ cs.head? = some c ∧ p ≠ c ∧ p ∉ cs.tail ∧ c ∉ ps.tail := by
  cases h with
  | modified differ gone fresh _ => exact ⟨_, _, rfl, rfl, differ, gone, fresh⟩

end

variable {α : Type} [DecidableEq α]

theorem between_nil (ps : List α) : between ps [] = ps.map fun _ => .removed := by
  cases ps with
  | nil => rw [between]; rfl
  | cons p ps => rw [between]; simp

private theorem before_append_startingAt (x : α) (xs : List α) :
    before x xs ++ startingAt x xs = xs :=
  List.takeWhile_append_dropWhile

theorem between_replay (ps cs : List α) : Replay (between ps cs) ps cs := by
  -- Lines before the next equal line go as one block, so those cases are not one entry but many.
  induction ps, cs using between.induct with
  | case1 cs =>
    have h := Replay.allAdded cs .done
    rw [between]
    simpa using h
  | case2 ps _ =>
    have h := Replay.allRemoved ps .done
    rw [between_nil]
    simpa using h
  | case3 ps c cs ih =>
    rw [between, if_pos rfl]
    exact .same c ih
  | case4 p ps c cs hne hmem ih =>
    have h := Replay.allAdded (before p cs) ih
    rw [before_append_startingAt] at h
    rw [between, if_neg hne, if_pos hmem]
    exact .added c h
  | case5 p ps c cs hne hnot hmem ih =>
    have h := Replay.allRemoved (before c ps) ih
    rw [before_append_startingAt] at h
    rw [between, if_neg hne, if_neg hnot, if_pos hmem]
    exact .removed p h
  | case6 p ps c cs hne hnot hnot' ih =>
    rw [between, if_neg hne, if_neg hnot, if_neg hnot']
    exact .modified hne hnot hnot' ih

end Highlight.Diff
