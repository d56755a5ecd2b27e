import Highlight.Proofs.Cache.Recency
import Mathlib.Data.List.GetD
import Mathlib.Data.List.Sort
/-! # The order of use told by a clock

A cache need not keep its entries in the order of their last use. It answers the same if it counts
its operations, stamps an entry with the count when it is used, and to make room drops all entries
that are stamped no later than a cut-off: no two stamps are equal, so the cut-off at the n-th stamp
drops the n entries used longest ago.
-/
namespace Highlight.Cache

variable {σ : Type}

/-- A cache that tells the order of use by a clock. No operation reads the order of its slots. -/
structure Clocked (σ : Type) where
  capacity : Nat
  /-- Entries and the times of their last use. -/
  slots : List (CacheEntry σ × Nat) := []
  clock : Nat := 0

namespace Clocked

def ofCapacity (capacity : Nat) : Clocked σ := { capacity := max 1 capacity }

/-- The time up to which entries are dropped to make room. -/
def cutoff (k : Clocked σ) : Nat :=
  ((k.slots.map Prod.snd).mergeSort (· ≤ ·)).getD
    (min (max 1 (k.capacity / 4)) k.slots.length - 1) 0

def evict (k : Clocked σ) : Clocked σ :=
  { k with slots := k.slots.filter fun s => k.cutoff < s.2 }

variable [DecidableEq σ]

def find? (k : Clocked σ) (text : Text) (inbound : σ) : Option (CacheEntry σ × Nat) :=
  k.slots.find? fun s => isFor text inbound s.1

/-- Stamps an entry with the time and puts it in the place of one under the same key. -/
def put (k : Clocked σ) (e : CacheEntry σ) (time : Nat) : Clocked σ :=
  { k with
    slots := (e, time) :: k.slots.filter fun s => !isFor e.text e.inbound s.1
    clock := time }

/-- Every operation but a clear counts, a look-up that finds nothing too. -/
def perform (k : Clocked σ) : Operation σ → Option (LineTokens σ) × Clocked σ
  | .store text inbound result =>
    let isNew := (k.find? text inbound).isNone
    let room := if isNew && k.capacity ≤ k.slots.length then k.evict else k
    (none, room.put ⟨text, inbound, result⟩ (k.clock + 1))
  | .lookup text inbound =>
    match k.find? text inbound with
    | none => (none, { k with clock := k.clock + 1 })
    | some s => (some s.1.result, k.put s.1 (k.clock + 1))
  | .clear => (none, { k with slots := [] })

/-- The answers to some operations. -/
def answers (k : Clocked σ) : List (Operation σ) → List (Option (LineTokens σ))
  | [] => []
  | op :: ops => (k.perform op).1 :: (k.perform op).2.answers ops

end Clocked

/-- The clocked cache has the same entries, and their stamps fall from the last used one on. -/
structure Tracks (k : Clocked σ) (c : Cache σ) : Prop where
  capacity : k.capacity = c.capacity
  entries : k.slots.map Prod.fst = c.entries
  order : (k.slots.map Prod.snd).Pairwise (· > ·)
  past : ∀ s ∈ k.slots, s.2 ≤ k.clock

theorem tracks_ofCapacity (capacity : Nat) :
    Tracks (.ofCapacity capacity) (ofCapacity capacity : Cache σ) where
  capacity := rfl
  entries := rfl
  order := .nil
  past := by simp [Clocked.ofCapacity]

private theorem mergeSort_of_pairwise_gt {times : List Nat} (h : times.Pairwise (· > ·)) :
    times.mergeSort (· ≤ ·) = times.reverse := by
  have hsorted : (times.mergeSort fun a b => decide (a ≤ b)).SortedLE := List.sortedLE_mergeSort
  have hreverse : times.reverse.SortedLE :=
    (List.pairwise_reverse.mpr (h.imp Nat.le_of_lt)).sortedLE
  exact ((List.mergeSort_perm _ _).trans (List.reverse_perm _).symm).eq_of_sortedLE hsorted hreverse

private theorem filter_lt_eq_take {slots : List (CacheEntry σ × Nat)}
    (h : (slots.map Prod.snd).Pairwise (· > ·)) {i : Nat} (hi : i < slots.length) :
    (slots.filter fun s => slots[i].2 < s.2) = slots.take i := by
  have hsplit : slots = slots.take i ++ slots[i] :: slots.drop (i + 1) := by
    rw [List.getElem_cons_drop, List.take_append_drop]
  rw [List.pairwise_map, hsplit, List.pairwise_append, List.pairwise_cons] at h
  obtain ⟨-, ⟨hbehind, -⟩, hahead⟩ := h
  generalize slots[i] = middle at hsplit hbehind hahead ⊢
  conv_lhs => rw [hsplit]
  rw [List.filter_append]
  have hkept : (slots.take i).filter (fun s => middle.2 < s.2) = slots.take i :=
    List.filter_eq_self.mpr fun s hs => decide_eq_true (hahead s hs middle List.mem_cons_self)
  have hdropped : (middle :: slots.drop (i + 1)).filter (fun s => middle.2 < s.2) = [] := by
    rw [List.filter_eq_nil_iff]
    intro s hs
    rw [decide_eq_true_eq, Nat.not_lt]
    rcases List.mem_cons.mp hs with rfl | hs
    · exact Nat.le_refl _
    · exact Nat.le_of_lt (hbehind s hs)
  rw [hkept, hdropped, List.append_nil]

variable {k room : Clocked σ} {c next : Cache σ}

private theorem Tracks.size (h : Tracks k c) : k.slots.length = c.size := by
  rw [Cache.size, ← h.entries, List.length_map]

private theorem Tracks.evict (h : Tracks k c) (hsome : 0 < k.slots.length) :
    Tracks k.evict c.evict := by
  have hevicted : k.evict.slots = k.slots.take (c.size - c.evictionSize) := by
    let target := max 1 (k.capacity / 4)
    let i := k.slots.length - min target k.slots.length
    have hpos : 0 < target := Nat.le_max_left _ _
    have hi : i < k.slots.length := by
      dsimp only [i]
      omega
    have hcutoff : k.cutoff = k.slots[i].2 := by
      have hindex : min target k.slots.length - 1 < (k.slots.map Prod.snd).reverse.length := by
        rw [List.length_reverse, List.length_map]
        omega
      rw [Clocked.cutoff, mergeSort_of_pairwise_gt h.order, List.getD_eq_getElem _ _ hindex,
        List.getElem_reverse, List.getElem_map]
      congr 2
      rw [List.length_map]
      dsimp only [i]
      omega
    have hcount : i = c.size - c.evictionSize := by
      rw [← h.size, evictionSize, ← h.capacity]
      dsimp only [i, target]
      omega
    rw [Clocked.evict, hcutoff, filter_lt_eq_take h.order hi, hcount]
  have hsublist : k.evict.slots.Sublist k.slots := List.filter_sublist
  constructor
  · exact h.capacity
  · rw [hevicted, List.map_take, h.entries]
    rfl
  · exact h.order.sublist (hsublist.map _)
  · exact fun s hs => h.past s (hsublist.subset hs)

variable [DecidableEq σ]

private theorem Tracks.put (h : Tracks room c) {e : CacheEntry σ} {time : Nat}
    (htime : room.clock < time) (hcapacity : next.capacity = c.capacity)
    (hentries : next.entries = e :: c.others e.text e.inbound) :
    Tracks (room.put e time) next := by
  have hothers : (room.slots.filter fun s => !isFor e.text e.inbound s.1).Sublist room.slots :=
    List.filter_sublist
  have hearlier : ∀ s ∈ room.slots.filter (fun s => !isFor e.text e.inbound s.1), s.2 < time :=
    fun s hs => Nat.lt_of_le_of_lt (h.past s (hothers.subset hs)) htime
  constructor
  · exact h.capacity.trans hcapacity.symm
  · rw [hentries, others, ← h.entries, List.filter_map]
    rfl
  · refine List.pairwise_cons.mpr ⟨?_, h.order.sublist (hothers.map _)⟩
    intro t ht
    obtain ⟨s, hs, rfl⟩ := List.mem_map.mp ht
    exact hearlier s hs
  · intro s hs
    rcases List.mem_cons.mp hs with rfl | hs
    · exact Nat.le_refl _
    · exact Nat.le_of_lt (hearlier s hs)

private theorem Tracks.find? (h : Tracks k c) (text : Text) (inbound : σ) :
    c.find? text inbound = (k.find? text inbound).map Prod.fst := by
  rw [Cache.find?, ← h.entries, List.find?_map]
  rfl

theorem Tracks.perform (h : Tracks k c) (op : Operation σ) :
    (k.perform op).1 = (c.perform op).1 ∧ Tracks (k.perform op).2 (c.perform op).2 := by
  cases op with
  | store text inbound result =>
    refine ⟨rfl, ?_⟩
    have hisNew : (k.find? text inbound).isNone = (c.find? text inbound).isNone := by
      rw [h.find?, Option.isNone_map]
    simp only [Clocked.perform, Cache.perform, Cache.store, hisNew, h.size, h.capacity]
    split
    · rename_i hmake
      rw [Bool.and_eq_true, decide_eq_true_eq] at hmake
      have hsome : 0 < k.slots.length := by
        rw [h.size]
        exact Nat.lt_of_lt_of_le c.capacity_pos hmake.2
      exact (h.evict hsome).put (Nat.lt_succ_self _) rfl rfl
    · exact h.put (Nat.lt_succ_self _) rfl rfl
  | lookup text inbound =>
    rcases hfind : k.find? text inbound with _ | s
    · have hmiss := h.find? text inbound
      rw [hfind, Option.map_none] at hmiss
      simp only [Clocked.perform, Cache.perform, Cache.lookup, hfind, hmiss, true_and]
      exact ⟨h.capacity, h.entries, h.order, fun s hs => Nat.le_succ_of_le (h.past s hs)⟩
    · have hhit := h.find? text inbound
      rw [hfind, Option.map_some] at hhit
      obtain ⟨rfl, rfl⟩ := Prod.mk.inj (find?_eq_some hhit).2
      simp only [Clocked.perform, Cache.perform, Cache.lookup, hfind, hhit, true_and]
      exact h.put (Nat.lt_succ_self _) rfl rfl
  | clear => exact ⟨rfl, h.capacity, rfl, .nil, by simp [Clocked.perform]⟩

/-- The answers to some operations. -/
def answers (c : Cache σ) : List (Operation σ) → List (Option (LineTokens σ))
  | [] => []
  | op :: ops => (c.perform op).1 :: (c.perform op).2.answers ops

private theorem Tracks.answers (h : Tracks k c) (ops : List (Operation σ)) :
    k.answers ops = c.answers ops := by
  induction ops generalizing k c with
  | nil => rfl
  | cons op ops ih =>
    obtain ⟨hanswer, hnext⟩ := h.perform op
    rw [Clocked.answers, Cache.answers, hanswer, ih hnext]

/-- A cache that tells the order of use by a clock answers every operation, of any run of them, as
the one that keeps its entries in that order. -/
theorem clocked_answers (capacity : Nat) (ops : List (Operation σ)) :
    (Clocked.ofCapacity capacity).answers ops = (ofCapacity capacity : Cache σ).answers ops :=
  (tracks_ofCapacity capacity).answers ops

end Highlight.Cache
