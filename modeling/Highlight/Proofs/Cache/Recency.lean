import Highlight.Cache
import Mathlib.Data.Finset.Card
import Mathlib.Data.List.DropRight
/-! # What a cache remembers

A look-up never answers with anything but what was stored last under the same text and state since
the cache was cleared. It answers with that as long as few others were used since, stored or found:
no more of them than a full cache keeps when it makes room. The entries stand in the order of their
last use, so the ones ahead of an entry are as many others that were used since.
-/
namespace Highlight

variable {σ : Type}

/-- What an entry is found by. -/
abbrev Key (σ : Type) : Type := Text × σ

def CacheEntry.key (e : CacheEntry σ) : Key σ := (e.text, e.inbound)

namespace Cache

inductive Operation (σ : Type) where
  | store (text : Text) (inbound : σ) (result : LineTokens σ)
  | lookup (text : Text) (inbound : σ)
  | clear
  deriving DecidableEq, Repr

variable [DecidableEq σ]

def perform (c : Cache σ) : Operation σ → Option (LineTokens σ) × Cache σ
  | .store text inbound result => (none, c.store text inbound result)
  | .lookup text inbound => c.lookup text inbound
  | .clear => (none, c.clear)

/-- The cache after some operations. -/
def after (c : Cache σ) (ops : List (Operation σ)) : Cache σ :=
  ops.foldl (fun c op => (c.perform op).2) c

/-- What is stored under a key after an operation, given what was before it. -/
def storedAfter (key : Key σ) (stored? : Option (LineTokens σ)) :
    Operation σ → Option (LineTokens σ)
  | .store text inbound result => if (text, inbound) = key then some result else stored?
  | .lookup _ _ => stored?
  | .clear => none

/-- What was stored last under a key, unless the cache was cleared since. -/
def lastStored? (ops : List (Operation σ)) (key : Key σ) : Option (LineTokens σ) :=
  ops.foldl (storedAfter key) none

/-- The key that an operation uses. A look-up uses its key only if it finds it. -/
def used? (c : Cache σ) : Operation σ → Option (Key σ)
  | .store text inbound _ => some (text, inbound)
  | .lookup text inbound => (c.lookup text inbound).1.map fun _ => (text, inbound)
  | .clear => none

/-- The keys that operations use, in order. -/
def uses (c : Cache σ) : List (Operation σ) → List (Key σ)
  | [] => []
  | op :: ops => (c.used? op).toList ++ (c.perform op).2.uses ops

/-- The keys used since a key was used last. -/
def usedSince (uses : List (Key σ)) (key : Key σ) : Finset (Key σ) :=
  (uses.rtakeWhile (· ≠ key)).toFinset

private theorem usedSince_concat_of_ne (uses : List (Key σ)) {key other : Key σ} (h : other ≠ key) :
    usedSince (uses ++ [other]) key = insert other (usedSince uses key) := by
  rw [usedSince, List.rtakeWhile_concat_pos _ _ _ (by simpa using h)]
  ext k
  simp [usedSince]

theorem isFor_iff_key {text : Text} {inbound : σ} {e : CacheEntry σ} :
    isFor text inbound e = true ↔ e.key = (text, inbound) := by
  simp [isFor, CacheEntry.key]

/-- The entries hold what was stored last and are in the order of their last use. An entry is lost
only after more other keys were used than making room leaves in a full cache. -/
structure Recent (stored? : Key σ → Option (LineTokens σ)) (uses : List (Key σ)) (c : Cache σ) :
    Prop where
  nodup : (c.entries.map CacheEntry.key).Nodup
  stored : ∀ e ∈ c.entries, stored? e.key = some e.result
  ahead : c.entries.Pairwise fun d e => d.key ∈ usedSince uses e.key
  lost : ∀ key, (stored? key).isSome = true → key ∉ c.entries.map CacheEntry.key →
    c.capacity - c.evictionSize < (usedSince uses key).card

theorem recent_ofCapacity (capacity : Nat) :
    Recent (fun _ => none) [] (ofCapacity capacity : Cache σ) where
  nodup := List.nodup_nil
  stored := by simp [ofCapacity]
  ahead := .nil
  lost := by simp

variable {stored? : Key σ → Option (LineTokens σ)} {uses : List (Key σ)} {c : Cache σ}

private theorem mem_others {d e : CacheEntry σ} :
    d ∈ c.others e.text e.inbound ↔ d ∈ c.entries ∧ d.key ≠ e.key := by
  rw [others, List.mem_filter, Bool.not_eq_true', ← Bool.not_eq_true, isFor_iff_key]
  rfl

private theorem others_sublist (c : Cache σ) (text : Text) (inbound : σ) :
    (c.others text inbound).Sublist c.entries :=
  List.filter_sublist

private theorem Recent.use (h : Recent stored? uses c) (room next : Cache σ) (e : CacheEntry σ)
    (hcapacity : next.capacity = c.capacity)
    (hentries : next.entries = e :: room.others e.text e.inbound)
    (hroom : room.entries.Sublist c.entries)
    (hdropped : ∀ d ∈ c.entries, d ∉ room.entries →
      c.capacity - c.evictionSize < (insert e.key (usedSince uses d.key)).card) :
    Recent (fun key => if e.key = key then some e.result else stored? key) (uses ++ [e.key])
      next := by
  have hothers : (room.others e.text e.inbound).Sublist c.entries :=
    (others_sublist room e.text e.inbound).trans hroom
  have hne : ∀ d ∈ room.others e.text e.inbound, e.key ≠ d.key :=
    fun d hd => Ne.symm (mem_others.mp hd).2
  constructor
  case nodup =>
    rw [hentries, List.map_cons, List.nodup_cons]
    constructor
    · intro hmem
      obtain ⟨d, hd, hkey⟩ := List.mem_map.mp hmem
      exact hne d hd hkey.symm
    · exact (hothers.map _).nodup h.nodup
  case stored =>
    intro d hd
    rw [hentries] at hd
    rcases List.mem_cons.mp hd with rfl | hd
    · rw [if_pos rfl]
    · rw [if_neg (hne d hd)]
      exact h.stored d (hothers.subset hd)
  case ahead =>
    rw [hentries, List.pairwise_cons]
    constructor
    · intro d hd
      rw [usedSince_concat_of_ne uses (hne d hd)]
      exact Finset.mem_insert_self _ _
    · refine (h.ahead.sublist hothers).imp_of_mem ?_
      intro a d _ hd hused
      rw [usedSince_concat_of_ne uses (hne d hd)]
      exact Finset.mem_insert_of_mem hused
  case lost =>
    intro key hstored hmissing
    have hkeeps : next.capacity - next.evictionSize = c.capacity - c.evictionSize := by
      rw [evictionSize, hcapacity]
      rfl
    rw [hentries, List.map_cons, List.mem_cons, not_or] at hmissing
    obtain ⟨hkey, hmissing⟩ := hmissing
    rw [if_neg (Ne.symm hkey)] at hstored
    rw [hkeeps, usedSince_concat_of_ne uses (Ne.symm hkey)]
    by_cases hmem : key ∈ c.entries.map CacheEntry.key
    · obtain ⟨d, hd, rfl⟩ := List.mem_map.mp hmem
      apply hdropped d hd
      intro hkeep
      exact hmissing (List.mem_map_of_mem (mem_others.mpr ⟨hkeep, hkey⟩))
    · exact Nat.lt_of_lt_of_le (h.lost key hstored hmem)
        (Finset.card_le_card (Finset.subset_insert _ _))

private theorem Recent.lt_card_of_evicted (h : Recent stored? uses c) (hfull : c.capacity ≤ c.size)
    {key : Key σ} (hnew : key ∉ c.entries.map CacheEntry.key) {d : CacheEntry σ}
    (hd : d ∈ c.entries) (hdropped : d ∉ c.evict.entries) :
    c.capacity - c.evictionSize < (insert key (usedSince uses d.key)).card := by
  let kept := c.entries.take (c.size - c.evictionSize)
  have hsplit : c.entries = kept ++ c.entries.drop (c.size - c.evictionSize) :=
    (List.take_append_drop _ _).symm
  have hrest : d ∈ c.entries.drop (c.size - c.evictionSize) := by
    rw [hsplit] at hd
    exact (List.mem_append.mp hd).resolve_left hdropped
  have hahead : (kept.map CacheEntry.key).toFinset ⊆ usedSince uses d.key := by
    have hpairs := h.ahead
    rw [hsplit, List.pairwise_append] at hpairs
    intro k hk
    obtain ⟨e, he, rfl⟩ := List.mem_map.mp (List.mem_toFinset.mp hk)
    exact hpairs.2.2 e he d hrest
  have hkept : kept.map CacheEntry.key |>.Sublist (c.entries.map CacheEntry.key) :=
    (List.take_sublist _ _).map _
  have hcount : (kept.map CacheEntry.key).toFinset.card = c.size - c.evictionSize := by
    rw [List.toFinset_card_of_nodup (hkept.nodup h.nodup), List.length_map, List.length_take]
    exact Nat.min_eq_left (Nat.sub_le _ _)
  have hfresh : key ∉ (kept.map CacheEntry.key).toFinset := by
    rw [List.mem_toFinset]
    exact fun hmem => hnew (hkept.subset hmem)
  calc
    c.capacity - c.evictionSize < c.size - c.evictionSize + 1 := by omega
    _ = (insert key (kept.map CacheEntry.key).toFinset).card := by
      rw [Finset.card_insert_of_notMem hfresh, hcount]
    _ ≤ (insert key (usedSince uses d.key)).card :=
      Finset.card_le_card (Finset.insert_subset_insert key hahead)

theorem find?_eq_some {text : Text} {inbound : σ} {e : CacheEntry σ}
    (h : c.find? text inbound = some e) : e ∈ c.entries ∧ e.key = (text, inbound) :=
  ⟨List.mem_of_find?_eq_some h, isFor_iff_key.mp (List.find?_some h)⟩

theorem find?_eq_none {text : Text} {inbound : σ} :
    c.find? text inbound = none ↔ (text, inbound) ∉ c.entries.map CacheEntry.key := by
  rw [find?, List.find?_eq_none, List.mem_map]
  simp only [isFor_iff_key, not_exists, not_and]

omit [DecidableEq σ] in
private theorem capacity_ite_evict (full : Bool) (c : Cache σ) :
    (if full then c.evict else c).capacity = c.capacity := by
  split
  · rfl
  · rfl

private theorem Recent.store (h : Recent stored? uses c) (text : Text) (inbound : σ)
    (result : LineTokens σ) :
    Recent (fun key => if (text, inbound) = key then some result else stored? key)
      (uses ++ [(text, inbound)]) (c.store text inbound result) := by
  let room := if (c.find? text inbound).isNone && c.capacity ≤ c.size then c.evict else c
  have hcapacity : room.capacity = c.capacity := capacity_ite_evict _ c
  have hroom : room.entries.Sublist c.entries := by
    dsimp only [room]
    split
    · exact List.take_sublist _ _
    · exact List.Sublist.refl _
  refine h.use room _ ⟨text, inbound, result⟩ hcapacity rfl hroom ?_
  intro d hd hdropped
  dsimp only [room] at hdropped
  split at hdropped
  · rename_i hmake
    rw [Bool.and_eq_true, Option.isNone_iff_eq_none, decide_eq_true_eq] at hmake
    exact h.lt_card_of_evicted hmake.2 (find?_eq_none.mp hmake.1) hd hdropped
  · exact absurd hd hdropped

private theorem Recent.lookup (h : Recent stored? uses c) (text : Text) (inbound : σ) :
    Recent stored? (uses ++ ((c.lookup text inbound).1.map fun _ => (text, inbound)).toList)
      (c.lookup text inbound).2 := by
  rcases hfind : c.find? text inbound with _ | e
  · simp only [Cache.lookup, hfind, Option.map_none, Option.toList_none, List.append_nil]
    exact ⟨h.nodup, h.stored, h.ahead, h.lost⟩
  · obtain ⟨hmem, hkey⟩ := find?_eq_some hfind
    obtain ⟨rfl, rfl⟩ := Prod.mk.inj hkey
    have hsame : (fun key => if e.key = key then some e.result else stored? key) = stored? := by
      funext key
      split
      · rename_i hkey
        rw [← hkey, h.stored e hmem]
      · rfl
    have hused := h.use c
      { c with entries := e :: c.others e.text e.inbound, hits := c.hits + 1 } e rfl rfl
      (List.Sublist.refl _) fun d hd hdropped => absurd hd hdropped
    rw [hsame] at hused
    simp only [Cache.lookup, hfind, Option.map_some, Option.toList_some]
    exact hused

private theorem recent_clear (c : Cache σ) (uses : List (Key σ)) :
    Recent (fun _ => none) uses c.clear where
  nodup := List.nodup_nil
  stored := by simp [clear]
  ahead := .nil
  lost := by simp

theorem Recent.perform (h : Recent stored? uses c) (op : Operation σ) :
    Recent (fun key => storedAfter key (stored? key) op) (uses ++ (c.used? op).toList)
      (c.perform op).2 := by
  cases op with
  | store text inbound result => exact h.store text inbound result
  | lookup text inbound => exact h.lookup text inbound
  | clear =>
    rw [used?, Option.toList_none, List.append_nil]
    exact recent_clear c uses

theorem Recent.after (h : Recent stored? uses c) (ops : List (Operation σ)) :
    Recent (fun key => ops.foldl (storedAfter key) (stored? key)) (uses ++ c.uses ops)
      (c.after ops) := by
  induction ops generalizing c stored? uses with
  | nil =>
    rw [Cache.uses, List.append_nil]
    exact h
  | cons op ops ih =>
    have hrest := ih (h.perform op)
    rwa [List.append_assoc] at hrest

private theorem Recent.of_hit (h : Recent stored? uses c) {text : Text} {inbound : σ}
    {result : LineTokens σ} (hhit : (c.lookup text inbound).1 = some result) :
    stored? (text, inbound) = some result := by
  rcases hfind : c.find? text inbound with _ | e
  · simp [Cache.lookup, hfind] at hhit
  · obtain ⟨hmem, hkey⟩ := find?_eq_some hfind
    have hresult : e.result = result := by simpa [Cache.lookup, hfind] using hhit
    rw [← hkey, h.stored e hmem, hresult]

private theorem Recent.hit (h : Recent stored? uses c) {text : Text} {inbound : σ}
    {result : LineTokens σ} (hstored : stored? (text, inbound) = some result)
    (hfew : (usedSince uses (text, inbound)).card ≤ c.capacity - c.evictionSize) :
    (c.lookup text inbound).1 = some result := by
  rcases hfind : c.find? text inbound with _ | e
  · have hlost := h.lost (text, inbound) (by rw [hstored]; rfl) (find?_eq_none.mp hfind)
    omega
  · have hhit : (c.lookup text inbound).1 = some e.result := by simp [Cache.lookup, hfind]
    rw [hhit, ← h.of_hit hhit, hstored]

private theorem perform_capacity (c : Cache σ) (op : Operation σ) :
    (c.perform op).2.capacity = c.capacity := by
  cases op with
  | store text inbound result =>
    exact capacity_ite_evict _ c
  | lookup text inbound =>
    rw [perform, Cache.lookup]
    split
    · rfl
    · rfl
  | clear => rfl

theorem after_capacity (c : Cache σ) (ops : List (Operation σ)) :
    (c.after ops).capacity = c.capacity := by
  induction ops generalizing c with
  | nil => rfl
  | cons op ops ih => exact (ih _).trans (c.perform_capacity op)

/-- After any operations, a look-up answers with nothing but what was stored last under its text and
state since the cache was cleared; and it does answer with that if no more other keys were used,
stored or found, since that one was used last than a full cache keeps when it makes room. -/
theorem lookup_after (capacity : Nat) (ops : List (Operation σ)) (text : Text) (inbound : σ) :
    let c : Cache σ := ofCapacity capacity
    let answer? := ((c.after ops).lookup text inbound).1
    let last? := lastStored? ops (text, inbound)
    let others := usedSince (c.uses ops) (text, inbound)
    (answer? = none ∨ answer? = last?) ∧
      (last?.isSome = true → others.card ≤ c.capacity - max 1 (c.capacity / 4) →
        answer?.isSome = true) := by
  intro c answer? last? others
  have hrecent : Recent (lastStored? ops) (c.uses ops) (c.after ops) :=
    (recent_ofCapacity capacity).after ops
  have hsafe : answer? = none ∨ answer? = last? := by
    rcases hanswer : answer? with _ | result
    · exact .inl rfl
    · exact .inr (hrecent.of_hit hanswer).symm
  refine ⟨hsafe, ?_⟩
  intro hlast hfew
  obtain ⟨result, hresult⟩ := Option.isSome_iff_exists.mp hlast
  have hkeeps : (c.after ops).capacity - (c.after ops).evictionSize =
      c.capacity - max 1 (c.capacity / 4) := by
    rw [evictionSize, after_capacity]
  have hhit := hrecent.hit hresult (hkeeps ▸ hfew)
  exact Option.isSome_iff_exists.mpr ⟨result, hhit⟩

/-- A line that was stored twice and found is still there after the next one that needs room, and
has its second result. One that was not found is not there: four others were used since. -/
theorem lookup_after_full :
    let read (kind : TokenKind) (c : Char) : LineTokens Unit := ⟨[⟨kind, [c]⟩], ()⟩
    let ops : List (Operation Unit) := [.store ['a'] () (read .text 'a'),
      .store ['b'] () (read .text 'b'), .store ['c'] () (read .text 'c'),
      .store ['a'] () (read .identifier 'a'), .store ['d'] () (read .text 'd'),
      .lookup ['a'] (), .store ['e'] () (read .text 'e')]
    let c : Cache Unit := ofCapacity 4
    (lastStored? ops (['a'], ())).isSome = true ∧
      (usedSince (c.uses ops) (['a'], ())).card ≤ c.capacity - max 1 (c.capacity / 4) ∧
      ((c.after ops).lookup ['a'] ()).1 = some (read .identifier 'a') ∧
      (usedSince (c.uses ops) (['b'], ())).card = 4 ∧ ((c.after ops).lookup ['b'] ()).1 = none := by
  intro read ops c
  have hlast : lastStored? ops (['a'], ()) = some (read .identifier 'a') := by decide +kernel
  have hstored : (lastStored? ops (['a'], ())).isSome = true := by rw [hlast]; rfl
  have hfew : (usedSince (c.uses ops) (['a'], ())).card ≤ c.capacity - max 1 (c.capacity / 4) := by
    decide +kernel
  obtain ⟨hsafe, hhit⟩ := lookup_after 4 ops ['a'] ()
  have hanswer : ((c.after ops).lookup ['a'] ()).1 = some (read .identifier 'a') := by
    rcases hsafe with hnone | hsome
    · have habsent : (((c.after ops).lookup ['a'] ()).1).isSome = false := by rw [hnone]; rfl
      exact absurd (hhit hstored hfew) (by rw [habsent]; decide)
    · exact hsome.trans hlast
  exact ⟨hstored, hfew, hanswer, by decide +kernel, by decide +kernel⟩

end Cache
end Highlight
