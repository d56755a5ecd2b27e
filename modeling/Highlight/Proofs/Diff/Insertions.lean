import Highlight.Proofs.Diff.Replay
/-! # Insertions

If lines were only inserted, the diff says so and loses none of the lines that were there. It pairs
each of them with its nearest occurrence, and behind that there are still all the lines that come
next: an earlier choice leaves more to choose from.
-/
namespace Highlight.Diff

section

variable {α : Type} {es : List Entry} {ps cs : List α}

private theorem Replay.sublist (h : Replay es ps cs) (honly : ∀ e ∈ es, e = .same ∨ e = .added) :
    ps.Sublist cs := by
  induction h with
  | done => exact .slnil
  | same x _ ih => exact (ih (List.forall_mem_cons.mp honly).2).cons_cons x
  | added c _ ih => exact (ih (List.forall_mem_cons.mp honly).2).cons c
  | modified | removed =>
    have hhead := honly _ List.mem_cons_self
    simp at hhead

private theorem Replay.counts (h : Replay es ps cs) (honly : ∀ e ∈ es, e = .same ∨ e = .added) :
    es.count .same = ps.length ∧ ps.length + es.count .added = cs.length := by
  induction h with
  | done => exact ⟨rfl, rfl⟩
  | same _ _ ih =>
    obtain ⟨hsame, hadded⟩ := ih (List.forall_mem_cons.mp honly).2
    rw [List.count_cons_self, List.count_cons_of_ne (by decide), List.length_cons, List.length_cons]
    omega
  | added _ _ ih =>
    obtain ⟨hsame, hadded⟩ := ih (List.forall_mem_cons.mp honly).2
    rw [List.count_cons_of_ne (by decide), List.count_cons_self, List.length_cons]
    omega
  | modified | removed =>
    have hhead := honly _ List.mem_cons_self
    simp at hhead

private theorem sublist_of_ne {p c : α} (hne : p ≠ c) (h : (p :: ps).Sublist (c :: cs)) :
    (p :: ps).Sublist cs := by
  rcases List.sublist_cons_iff.mp h with h | ⟨r, hr, -⟩
  · exact h
  · exact absurd (List.head_eq_of_cons_eq hr) hne

end

variable {α : Type} [DecidableEq α] {ps cs : List α}

private theorem sublist_startingAt {p : α} (h : (p :: ps).Sublist cs) :
    (p :: ps).Sublist (startingAt p cs) := by
  induction cs with
  | nil => contradiction
  | cons c cs ih =>
    by_cases hc : c = p
    · simpa [startingAt, hc] using h
    · simpa [startingAt, hc] using ih (sublist_of_ne (Ne.symm hc) h)

private theorem between_of_sublist (h : ps.Sublist cs) :
    ∀ e ∈ between ps cs, e = .same ∨ e = .added := by
  induction ps, cs using between.induct with
  | case1 cs => simp [between]
  | case2 ps _ => simp [List.sublist_nil.mp h, between]
  | case3 ps c cs ih =>
    rw [between, if_pos rfl]
    exact List.forall_mem_cons.mpr ⟨.inl rfl, ih (List.cons_sublist_cons.mp h)⟩
  | case4 p ps c cs hne hmem ih =>
    have hrest := ih (sublist_startingAt (sublist_of_ne hne h))
    rw [between, if_neg hne, if_pos hmem]
    intro e he
    rcases List.mem_append.mp he with hrun | hlater
    · rcases List.mem_cons.mp hrun with rfl | hrun
      · exact .inr rfl
      · obtain ⟨-, -, rfl⟩ := List.mem_map.mp hrun
        exact .inr rfl
    · exact hrest e hlater
  | case5 p ps c cs hne hnot hmem ih | case6 p ps c cs hne hnot hnot' ih =>
    exact absurd ((sublist_of_ne hne h).subset List.mem_cons_self) hnot

/-- The current lines are the previous ones with lines inserted anywhere exactly if the diff knows
only lines that are the same, as many as there were before, and added lines, all the others. -/
theorem insertions_exact_iff (ps cs : List α) :
    ps.Sublist cs ↔ (∀ e ∈ between ps cs, e = .same ∨ e = .added) ∧
      (between ps cs).count .same = ps.length ∧
      (between ps cs).count .added = cs.length - ps.length := by
  constructor
  · intro h
    have honly := between_of_sublist h
    obtain ⟨hsame, hadded⟩ := (between_replay ps cs).counts honly
    exact ⟨honly, hsame, by omega⟩
  · rintro ⟨honly, -, -⟩
    exact (between_replay ps cs).sublist honly

end Highlight.Diff
