import Highlight.Tokenizer
/-! # Line cache

A cache of tokenized lines. It is bounded: a store that finds it full first drops the quarter of
the entries that was used longest ago.
-/
namespace Highlight

structure CacheEntry (σ : Type) where
  text : Text
  inbound : σ
  result : LineTokens σ
  deriving DecidableEq, Repr

structure Cache (σ : Type) where
  capacity : Nat
  /-- The last used entry first. -/
  entries : List (CacheEntry σ) := []
  hits : Nat := 0
  misses : Nat := 0
  evictions : Nat := 0
  capacity_pos : 0 < capacity

namespace Cache

variable {σ : Type} [DecidableEq σ]

def defaultCapacity : Nat := 16 * 1024

/-- An empty cache for some number of lines, at least one. -/
def ofCapacity (capacity : Nat) : Cache σ where
  capacity := max 1 capacity
  capacity_pos := by omega

def size (c : Cache σ) : Nat := c.entries.length

def isEmpty (c : Cache σ) : Bool := c.entries.isEmpty

def isFor (text : Text) (inbound : σ) (e : CacheEntry σ) : Bool :=
  e.text == text && e.inbound == inbound

def find? (c : Cache σ) (text : Text) (inbound : σ) : Option (CacheEntry σ) :=
  c.entries.find? (isFor text inbound)

def others (c : Cache σ) (text : Text) (inbound : σ) : List (CacheEntry σ) :=
  c.entries.filter fun e => !isFor text inbound e

/-- Finds the result of reading a text from a state, which then counts as used. -/
def lookup (c : Cache σ) (text : Text) (inbound : σ) : Option (LineTokens σ) × Cache σ :=
  match c.find? text inbound with
  | none => (none, { c with misses := c.misses + 1 })
  | some e =>
    (some e.result, { c with entries := e :: c.others text inbound, hits := c.hits + 1 })

def evictionSize (c : Cache σ) : Nat := max 1 (c.capacity / 4)

/-- Drops the entries that were used longest ago. -/
def evict (c : Cache σ) : Cache σ :=
  let kept := c.entries.take (c.size - c.evictionSize)
  { c with entries := kept, evictions := c.evictions + (c.size - kept.length) }

/-- Stores the result of reading a text from a state in the place of an earlier one. -/
def store (c : Cache σ) (text : Text) (inbound : σ) (result : LineTokens σ) : Cache σ :=
  let isNew := (c.find? text inbound).isNone
  let c := if isNew && c.capacity ≤ c.size then c.evict else c
  { c with entries := ⟨text, inbound, result⟩ :: c.others text inbound }

def clear (c : Cache σ) : Cache σ :=
  { c with entries := [], hits := 0, misses := 0, evictions := 0 }

end Cache
end Highlight
