import Highlight.Proofs.Cache.Clock
/-! # Making room

A store that finds the cache full and no entry under its key makes room: it drops exactly as many
entries as are to go, and every one of them was used last before any entry that stays. Nothing else
drops an entry but a clear. So the entries and the evictions together are the stores under new keys,
and the hits and the misses the look-ups, both counted since the last clear.
-/
namespace Highlight.Cache

variable {σ : Type} [DecidableEq σ]

/-- How many uses there were up to the last one of a key. -/
def lastUse (uses : List (Key σ)) (key : Key σ) : Nat := (uses.rdropWhile (· ≠ key)).length

private theorem lastUse_lt_of_mem_usedSince {uses : List (Key σ)} {key other : Key σ}
    (h : other ∈ usedSince uses key) : lastUse uses key < lastUse uses other := by
  let front := uses.rdropWhile (· ≠ key)
  let back := uses.rtakeWhile (· ≠ key)
  have hsplit : uses = front ++ back := List.rdropWhile_append_rtakeWhile.symm
  have hback : other ∈ back.reverse := List.mem_reverse.mpr (List.mem_toFinset.mp h)
  have hfound : back.reverse.dropWhile (· ≠ other) ≠ [] := by
    rw [ne_eq, List.dropWhile_eq_nil_iff]
    intro hall
    simpa using hall other hback
  have hlast : lastUse uses other = front.length + (back.reverse.dropWhile (· ≠ other)).length := by
    rw [lastUse, hsplit, List.rdropWhile, List.length_reverse, List.reverse_append,
      List.dropWhile_append, if_neg (by simpa using hfound), List.length_append,
      List.length_reverse, Nat.add_comm]
  have hpos := List.length_pos_iff.mpr hfound
  rw [hlast]
  exact Nat.lt_add_of_pos_right hpos

/-- What operations come to since the last clear. -/
structure Tally where
  newStores : Nat := 0
  lookups : Nat := 0
  deriving DecidableEq, Repr

/-- The tally after one more operation on the cache. -/
def Tally.after (t : Tally) (c : Cache σ) : Operation σ → Tally
  | .store text inbound _ =>
    if (text, inbound) ∈ c.entries.map CacheEntry.key then t
    else { t with newStores := t.newStores + 1 }
  | .lookup _ _ => { t with lookups := t.lookups + 1 }
  | .clear => {}

def tallyFrom (t : Tally) (c : Cache σ) : List (Operation σ) → Tally
  | [] => t
  | op :: ops => tallyFrom (t.after c op) (c.perform op).2 ops

def tally (c : Cache σ) (ops : List (Operation σ)) : Tally := tallyFrom {} c ops

/-- The operation is a store that finds the cache full and no entry under its key. -/
def MakesRoom (c : Cache σ) : Operation σ → Prop
  | .store text inbound _ =>
    (text, inbound) ∉ c.entries.map CacheEntry.key ∧ c.size = c.capacity
  | .lookup _ _ => False
  | .clear => False

instance (c : Cache σ) : DecidablePred c.MakesRoom
  | .store text inbound _ => inferInstanceAs (Decidable ((text, inbound) ∉ _ ∧ c.size = c.capacity))
  | .lookup _ _ => inferInstanceAs (Decidable False)
  | .clear => inferInstanceAs (Decidable False)

/-- Some entries were dropped to make room for another one. -/
structure Evicts (uses : List (Key σ)) (c next : Cache σ) (e : CacheEntry σ)
    (kept dropped : List (CacheEntry σ)) : Prop where
  split : c.entries = kept ++ dropped
  count : dropped.length = max 1 (c.capacity / 4)
  entries : next.entries = e :: kept
  evictions : next.evictions = c.evictions + dropped.length
  earlier : ∀ d ∈ dropped, ∀ s ∈ kept, lastUse uses d.key < lastUse uses s.key

variable {c : Cache σ} {text : Text} {inbound : σ} {uses : List (Key σ)}
  {stored? : Key σ → Option (LineTokens σ)}

omit [DecidableEq σ] in
private theorem evictionSize_le (c : Cache σ) : c.evictionSize ≤ c.capacity := by
  have hpos := c.capacity_pos
  rw [evictionSize]
  omega

private theorem keys_others (c : Cache σ) (text : Text) (inbound : σ) :
    (c.others text inbound).map CacheEntry.key =
      (c.entries.map CacheEntry.key).filter (· != (text, inbound)) := by
  rw [List.filter_map, others]
  refine congrArg (List.map CacheEntry.key) (List.filter_congr fun e _ => ?_)
  rw [Bool.eq_iff_iff, Bool.not_eq_true', ← Bool.not_eq_true, isFor_iff_key]
  exact bne_iff_ne.symm

private theorem others_of_notMem (h : (text, inbound) ∉ c.entries.map CacheEntry.key) :
    c.others text inbound = c.entries := by
  rw [others, List.filter_eq_self]
  intro e he
  rw [Bool.not_eq_true', ← Bool.not_eq_true, isFor_iff_key]
  exact fun hkey => h (hkey ▸ List.mem_map_of_mem he)

private theorem length_others_of_mem (hnodup : (c.entries.map CacheEntry.key).Nodup)
    (h : (text, inbound) ∈ c.entries.map CacheEntry.key) :
    (c.others text inbound).length + 1 = c.size := by
  have hpos := List.length_pos_of_mem h
  rw [← List.length_map CacheEntry.key, keys_others, ← hnodup.erase_eq_filter,
    List.length_erase_of_mem h, Nat.sub_add_cancel hpos, List.length_map, size]

private theorem store_of_mem (h : (text, inbound) ∈ c.entries.map CacheEntry.key)
    (result : LineTokens σ) :
    c.store text inbound result =
      { c with entries := ⟨text, inbound, result⟩ :: c.others text inbound } := by
  have hold : (c.find? text inbound).isNone = false := by
    rw [← Bool.not_eq_true, Option.isNone_iff_eq_none, find?_eq_none]
    exact not_not_intro h
  rw [store, hold]
  rfl

private theorem store_of_room (h : (text, inbound) ∉ c.entries.map CacheEntry.key)
    (hroom : c.size < c.capacity) (result : LineTokens σ) :
    c.store text inbound result = { c with entries := ⟨text, inbound, result⟩ :: c.entries } := by
  have hfits : ¬ c.capacity ≤ c.size := Nat.not_le_of_lt hroom
  rw [store, decide_eq_false hfits, Bool.and_false]
  change { c with entries := ⟨text, inbound, result⟩ :: c.others text inbound } = _
  rw [others_of_notMem h]

/-- What is left in front of the entries that are to go. -/
def kept (c : Cache σ) : List (CacheEntry σ) := c.entries.take (c.size - c.evictionSize)

omit [DecidableEq σ] in
private theorem length_kept (c : Cache σ) : c.kept.length = c.size - c.evictionSize := by
  rw [kept, List.length_take, ← size]
  exact Nat.min_eq_left (Nat.sub_le _ _)

private theorem store_of_full (h : (text, inbound) ∉ c.entries.map CacheEntry.key)
    (hfull : c.size = c.capacity) (result : LineTokens σ) :
    c.store text inbound result = { c with
      entries := ⟨text, inbound, result⟩ :: c.kept
      evictions := c.evictions + c.evictionSize } := by
  have hnew : (c.find? text inbound).isNone = true := by
    rw [find?_eq_none.mpr h, Option.isNone_none]
  have hgone : c.size - c.kept.length = c.evictionSize := by
    have hle := c.evictionSize_le
    rw [length_kept]
    omega
  have hkept : (text, inbound) ∉ c.evict.entries.map CacheEntry.key :=
    fun hmem => h (((List.take_sublist _ _).map _).subset hmem)
  rw [store, hnew, decide_eq_true (Nat.le_of_eq hfull.symm)]
  change { c.evict with entries := ⟨text, inbound, result⟩ :: c.evict.others text inbound } = _
  rw [others_of_notMem hkept, ← hgone]
  rfl

/-- The books are kept: what was stored anew is there or was evicted, and each look-up was a hit or
a miss. -/
structure Balanced (t : Tally) (c : Cache σ) : Prop where
  stores : c.size + c.evictions = t.newStores
  lookups : c.hits + c.misses = t.lookups
  bounded : c.size ≤ c.capacity

variable {t : Tally}

omit [DecidableEq σ] in
private theorem balanced_ofCapacity (capacity : Nat) :
    Balanced {} (ofCapacity capacity : Cache σ) :=
  ⟨rfl, rfl, Nat.zero_le _⟩

private theorem Balanced.store (h : Balanced t c) (hnodup : (c.entries.map CacheEntry.key).Nodup)
    (text : Text) (inbound : σ) (result : LineTokens σ) :
    Balanced (t.after c (.store text inbound result)) (c.store text inbound result) := by
  by_cases hmem : (text, inbound) ∈ c.entries.map CacheEntry.key
  · have hlength := length_others_of_mem hnodup hmem
    rw [Tally.after, if_pos hmem, store_of_mem hmem]
    exact ⟨(congrArg (· + c.evictions) hlength).trans h.stores, h.lookups,
      (Nat.le_of_eq hlength).trans h.bounded⟩
  · have hstores := h.stores
    rw [Tally.after, if_neg hmem]
    rcases Nat.lt_or_eq_of_le h.bounded with hroom | hfull
    · rw [store_of_room hmem hroom]
      refine ⟨?_, h.lookups, hroom⟩
      change c.size + 1 + c.evictions = t.newStores + 1
      omega
    · have hle := c.evictionSize_le
      have hpos : 0 < c.evictionSize := Nat.le_max_left _ _
      have hsize : (⟨text, inbound, result⟩ :: c.kept).length = c.size - c.evictionSize + 1 :=
        congrArg (· + 1) c.length_kept
      rw [store_of_full hmem hfull]
      refine ⟨?_, h.lookups, ?_⟩
      · change (⟨text, inbound, result⟩ :: c.kept).length + (c.evictions + c.evictionSize) =
          t.newStores + 1
        omega
      · change (⟨text, inbound, result⟩ :: c.kept).length ≤ c.capacity
        omega

private theorem Balanced.lookup (h : Balanced t c) (hnodup : (c.entries.map CacheEntry.key).Nodup)
    (text : Text) (inbound : σ) :
    Balanced (t.after c (.lookup text inbound)) (c.lookup text inbound).2 := by
  have hlookups := h.lookups
  rcases hfind : c.find? text inbound with _ | e
  · rw [Cache.lookup, hfind]
    refine ⟨h.stores, ?_, h.bounded⟩
    change c.hits + (c.misses + 1) = t.lookups + 1
    omega
  · obtain ⟨hmem, hkey⟩ := find?_eq_some hfind
    have hlength : (c.others text inbound).length + 1 = c.size :=
      length_others_of_mem hnodup (hkey ▸ List.mem_map_of_mem (f := CacheEntry.key) hmem)
    rw [Cache.lookup, hfind]
    refine ⟨(congrArg (· + c.evictions) hlength).trans h.stores, ?_,
      (Nat.le_of_eq hlength).trans h.bounded⟩
    change c.hits + 1 + c.misses = t.lookups + 1
    omega

private theorem Balanced.perform (h : Balanced t c) (hnodup : (c.entries.map CacheEntry.key).Nodup)
    (op : Operation σ) : Balanced (t.after c op) (c.perform op).2 := by
  cases op with
  | store text inbound result => exact h.store hnodup text inbound result
  | lookup text inbound => exact h.lookup hnodup text inbound
  | clear => exact ⟨rfl, rfl, Nat.zero_le _⟩

private theorem Balanced.after (h : Balanced t c) (hrecent : Recent stored? uses c)
    (ops : List (Operation σ)) : Balanced (tallyFrom t c ops) (c.after ops) := by
  induction ops generalizing t c stored? uses with
  | nil => exact h
  | cons op ops ih => exact ih (h.perform hrecent.nodup op) (hrecent.perform op)

/-- A full cache drops the entries behind those that it keeps, and the order of the entries is that
of their last use. -/
theorem Recent.evicts (h : Recent stored? uses c)
    (hnew : (text, inbound) ∉ c.entries.map CacheEntry.key) (hfull : c.size = c.capacity)
    (result : LineTokens σ) :
    Evicts uses c (c.store text inbound result) ⟨text, inbound, result⟩ c.kept
      (c.entries.drop (c.size - c.evictionSize)) := by
  have hsplit : c.entries = c.kept ++ c.entries.drop (c.size - c.evictionSize) :=
    (List.take_append_drop _ _).symm
  have hcount : (c.entries.drop (c.size - c.evictionSize)).length = c.evictionSize := by
    have hle := c.evictionSize_le
    rw [List.length_drop, ← size]
    omega
  rw [store_of_full hnew hfull]
  refine ⟨hsplit, hcount, rfl, congrArg (c.evictions + ·) hcount.symm, ?_⟩
  intro d hd s hs
  have hpairs := h.ahead
  rw [hsplit, List.pairwise_append] at hpairs
  exact lastUse_lt_of_mem_usedSince (hpairs.2.2 s hs d hd)

private theorem perform_keeps (hnodup : (c.entries.map CacheEntry.key).Nodup)
    (hbounded : c.size ≤ c.capacity) {op : Operation σ} (hclear : op ≠ .clear)
    (hroom : ¬ c.MakesRoom op) :
    (c.perform op).2.evictions = c.evictions ∧ ∀ e ∈ c.entries, e ∈ (c.perform op).2.entries ∨
      ∃ result, op = .store e.text e.inbound result ∧
        ⟨e.text, e.inbound, result⟩ ∈ (c.perform op).2.entries := by
  have hothers : ∀ e ∈ c.entries, ∀ text inbound, e.key ≠ (text, inbound) →
      e ∈ c.others text inbound := by
    intro e he text inbound hne
    rw [others, List.mem_filter, Bool.not_eq_true', ← Bool.not_eq_true, isFor_iff_key]
    exact ⟨he, hne⟩
  cases op with
  | store text inbound result =>
    by_cases hmem : (text, inbound) ∈ c.entries.map CacheEntry.key
    · rw [perform, store_of_mem hmem]
      refine ⟨rfl, ?_⟩
      intro e he
      by_cases hkey : e.key = (text, inbound)
      · obtain ⟨rfl, rfl⟩ := Prod.mk.inj hkey
        exact .inr ⟨result, rfl, List.mem_cons_self⟩
      · exact .inl (List.mem_cons_of_mem _ (hothers e he text inbound hkey))
    · have hfits : c.size < c.capacity :=
        Nat.lt_of_le_of_ne hbounded fun hfull => hroom ⟨hmem, hfull⟩
      rw [perform, store_of_room hmem hfits]
      exact ⟨rfl, fun e he => .inl (List.mem_cons_of_mem _ he)⟩
  | lookup text inbound =>
    rcases hfind : c.find? text inbound with _ | found
    · rw [perform, Cache.lookup, hfind]
      exact ⟨rfl, fun e he => .inl he⟩
    · rw [perform, Cache.lookup, hfind]
      refine ⟨rfl, ?_⟩
      intro e he
      obtain ⟨hmem, hfound⟩ := find?_eq_some hfind
      by_cases hkey : e.key = (text, inbound)
      · obtain rfl : e = found := List.inj_on_of_nodup_map hnodup he hmem (hkey.trans hfound.symm)
        exact .inl List.mem_cons_self
      · exact .inl (List.mem_cons_of_mem _ (hothers e he text inbound hkey))
  | clear => exact absurd rfl hclear

/-- The clocked cache after some operations. -/
def Clocked.after (k : Clocked σ) (ops : List (Operation σ)) : Clocked σ :=
  ops.foldl (fun k op => (k.perform op).2) k

private theorem Tracks.after {k : Clocked σ} (h : Tracks k c) (ops : List (Operation σ)) :
    Tracks (k.after ops) (c.after ops) := by
  induction ops generalizing k c with
  | nil => exact h
  | cons op ops ih => exact ih (h.perform op).2

/-- After any operations a cache holds no more entries than its capacity. A store that finds it full
and no entry under its key drops exactly a quarter of the capacity, or one entry, and each entry
that it drops was used last before every one that stays; no other operation but a clear drops any,
though a store puts a new result in the place of an old one under its key. Since the last clear, the
entries and the evictions come to the stores under keys that had no entry, and the hits and the
misses to the look-ups. A cache that tells the order of use by a clock, and drops what is stamped no
later than a cut-off, holds the same entries, no two of them with one stamp. -/
theorem room_made_exactly (capacity : Nat) (ops : List (Operation σ)) :
    let start : Cache σ := ofCapacity capacity
    let c := start.after ops
    let clocked := (Clocked.ofCapacity capacity).after ops
    c.capacity = max 1 capacity ∧ c.size ≤ c.capacity ∧
    (∀ text inbound result, c.MakesRoom (.store text inbound result) → ∃ kept dropped,
      Evicts (start.uses ops) c (c.store text inbound result) ⟨text, inbound, result⟩ kept
        dropped) ∧
    (∀ op, op ≠ .clear → ¬ c.MakesRoom op → (c.perform op).2.evictions = c.evictions ∧
      ∀ e ∈ c.entries, e ∈ (c.perform op).2.entries ∨
        ∃ result, op = .store e.text e.inbound result ∧
          ⟨e.text, e.inbound, result⟩ ∈ (c.perform op).2.entries) ∧
    c.size + c.evictions = (start.tally ops).newStores ∧
    c.hits + c.misses = (start.tally ops).lookups ∧
    clocked.slots.map Prod.fst = c.entries ∧ (clocked.slots.map Prod.snd).Nodup := by
  intro start c clocked
  have hrecent : Recent (lastStored? ops) (start.uses ops) c :=
    (recent_ofCapacity capacity).after ops
  have hbalanced : Balanced (start.tally ops) c :=
    (balanced_ofCapacity capacity).after (recent_ofCapacity capacity) ops
  have htracks : Tracks clocked c := (tracks_ofCapacity capacity).after ops
  refine ⟨start.after_capacity ops, hbalanced.bounded, ?_, ?_, hbalanced.stores,
    hbalanced.lookups, htracks.entries, htracks.order.imp Nat.ne_of_gt⟩
  · intro text inbound result hroom
    exact ⟨_, _, hrecent.evicts hroom.1 hroom.2 result⟩
  · intro op hclear hroom
    exact perform_keeps hrecent.nodup hbalanced.bounded hclear hroom

/-- A full cache for eight lines, behind a clear. The first line was found again and the second one
stored again, so the next new line drives out the third and the fourth. A second result for a line
that is there drives out none. -/
theorem room_made_exactly_eight :
    let read (kind : TokenKind) (c : Char) : LineTokens Unit := ⟨[⟨kind, [c]⟩], ()⟩
    let put (c : Char) : Operation Unit := .store [c] () (read .text c)
    let ops := [put 'x', .clear] ++ "abcdefgh".toList.map put ++
      [.lookup ['a'] (), .lookup ['x'] (), put 'b']
    let start : Cache Unit := ofCapacity 8
    let c := start.after ops
    let again : Operation Unit := .store ['e'] () (read .identifier 'e')
    (c.MakesRoom (put 'i') ∧
      (∃ kept dropped, Evicts (start.uses ops) c (c.store ['i'] () (read .text 'i'))
        ⟨['i'], (), read .text 'i'⟩ kept dropped) ∧
      (c.perform (put 'i')).2.entries.map CacheEntry.text = "ibahgfe".toList.map ([·])) ∧
    (again ≠ .clear ∧ ¬ c.MakesRoom again ∧ (c.perform again).2.evictions = c.evictions ∧
      ∀ e ∈ c.entries, e ∈ (c.perform again).2.entries ∨
        ∃ result, again = .store e.text e.inbound result ∧
          ⟨e.text, e.inbound, result⟩ ∈ (c.perform again).2.entries) ∧
    start.tally ops = ⟨8, 2⟩ ∧ c.hits + c.misses = 2 := by
  intro read put ops start c again
  have hroom : c.MakesRoom (put 'i') := by decide +kernel
  have hkeeps : ¬ c.MakesRoom again := by decide +kernel
  have hclear : again ≠ .clear := by decide
  have htally : start.tally ops = ⟨8, 2⟩ := by decide +kernel
  obtain ⟨-, -, hmakes, hleaves, -, hlookups, -⟩ := room_made_exactly 8 ops
  rw [show (ofCapacity 8 : Cache Unit).tally ops = ⟨8, 2⟩ from htally] at hlookups
  exact ⟨⟨hroom, hmakes ['i'] () (read .text 'i') hroom, by decide +kernel⟩,
    ⟨hclear, hkeeps, hleaves again hclear hkeeps⟩, htally, hlookups⟩

end Highlight.Cache
