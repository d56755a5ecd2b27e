import Highlight.Cache
import Highlight.Patch
import Highlight.RenderMode
import Highlight.Window
/-! # Incremental rendering

A pass aligns the new texts with the lines of the pass before it and decides line by line whether
to keep the old rendering, to read the text, or to leave a placeholder. What lies above the end of
the window is always up to date after a pass; lines below it may stay dirty.
-/
namespace Highlight

structure RenderStats where
  /-- Dirty lines that were read again. -/
  renderDirty : Nat := 0
  reused : Nat := 0
  /-- Old lines that a changed state made dirty. -/
  markedStale : Nat := 0
  cacheHits : Nat := 0
  placeholders : Nat := 0
  tokenized : Nat := 0
  deriving DecidableEq, Repr

structure Renderer (σ : Type) where
  tokenizer : Tokenizer σ
  cache : Cache σ
  lines : List (Line σ) := []
  /-- The identity given out last. -/
  lastId : Nat := 0

namespace Renderer

variable {σ : Type}

/-- For each current line, the previous line that the diff pairs it with as equal. -/
def align : List Diff.Entry → List (Line σ) → List (Option (Line σ))
  | .same :: es, l :: ls => some l :: align es ls
  | .modified :: es, _ :: ls => none :: align es ls
  | .added :: es, ls => none :: align es ls
  | .removed :: es, _ :: ls => align es ls
  | _, _ => []

/-- What changes while a pass goes from line to line. -/
structure Pass (σ : Type) where
  cache : Cache σ
  lastId : Nat
  stats : RenderStats := {}

namespace Pass

def countReused (p : Pass σ) : Pass σ :=
  { p with stats := { p.stats with reused := p.stats.reused + 1 } }

def countStale (p : Pass σ) : Pass σ :=
  { p with stats := { p.stats with markedStale := p.stats.markedStale + 1 } }

def countDirty (p : Pass σ) : Pass σ :=
  { p with stats := { p.stats with renderDirty := p.stats.renderDirty + 1 } }

variable [Fingerprint σ]

def leave (text : Text) (inbound : σ) (p : Pass σ) : Line σ × Pass σ :=
  let id := p.lastId + 1
  (.placeholder id text inbound,
    { p with lastId := id, stats := { p.stats with placeholders := p.stats.placeholders + 1 } })

variable [DecidableEq σ]

/-- Renders a line from the cache or else by the tokenizer. -/
def read (T : Tokenizer σ) (text : Text) (inbound : σ) (p : Pass σ) : Line σ × Pass σ :=
  let id := p.lastId + 1
  match p.cache.lookup text inbound with
  | (some result, cache) =>
    (.rendered id text inbound result,
      { cache, lastId := id, stats := { p.stats with cacheHits := p.stats.cacheHits + 1 } })
  | (none, cache) =>
    let result := T.tokenize text inbound
    (.rendered id text inbound result,
      { cache := cache.store text inbound result, lastId := id,
        stats := { p.stats with tokenized := p.stats.tokenized + 1 } })

end Pass

variable [DecidableEq σ] [Fingerprint σ]

/-- The new rendering of a line that has none to go by. -/
def renderNew (T : Tokenizer σ) (mode : RenderMode) (below : Bool) (text : Text) (inbound : σ)
    (p : Pass σ) : Line σ × Pass σ :=
  if mode ≠ .full && below then p.leave text inbound else p.read T text inbound

/-- The rendering of a line that may keep the old one. It is out of date if the state that
reaches the line has another fingerprint than before. -/
def renderOld (T : Tokenizer σ) (below : Bool) (old : Line σ) (text : Text) (inbound : σ)
    (p : Pass σ) : Line σ × Pass σ :=
  let stale := old.inboundFingerprint ≠ Fingerprint.of inbound
  let old := if stale then old.markDirty else old
  let p := if stale then p.countStale else p
  if old.dirty && !below then p.countDirty.read T text inbound else (old, p.countReused)

def renderLine (T : Tokenizer σ) (window : Window) (mode : RenderMode) (index : Nat) (text : Text)
    (old? : Option (Line σ)) (inbound : σ) (p : Pass σ) : Line σ × Pass σ :=
  let below := window.isBelow index
  match old? with
  | some old =>
    if mode.reuses (window.contains index) old.dirty then renderOld T below old text inbound p
    else renderNew T mode below text inbound p
  | none => renderNew T mode below text inbound p

/-- Renders lines in turn, from an index and the state that reaches it. -/
def renderLines (T : Tokenizer σ) (window : Window) (mode : RenderMode) :
    Nat → σ → Pass σ → List (Text × Option (Line σ)) → List (Line σ) × Pass σ
  | _, _, p, [] => ([], p)
  | index, inbound, p, (text, old?) :: rest =>
    let next := renderLine T window mode index text old? inbound p
    let more := renderLines T window mode (index + 1) next.1.outbound next.2 rest
    (next.1 :: more.1, more.2)

structure Outcome (σ : Type) where
  /-- Brings the lines of the pass before up to date. -/
  script : List (Patch σ)
  stats : RenderStats
  diff : Diff.Stats

def Outcome.isNoop (o : Outcome σ) : Bool := o.script.all Patch.isKeep

def ofTokenizer (T : Tokenizer σ) (cacheCapacity : Nat) : Renderer σ where
  tokenizer := T
  cache := .ofCapacity cacheCapacity

/-- A render pass over the texts of a document's lines. -/
def render (r : Renderer σ) (texts : List Text) (window : Window) (mode : RenderMode) :
    Outcome σ × Renderer σ :=
  let entries := Diff.between (r.lines.map Line.text) texts
  let done := renderLines r.tokenizer window mode 0 r.tokenizer.initial
    { cache := r.cache, lastId := r.lastId } (texts.zip (align entries r.lines))
  ({ script := Patch.script entries (r.lines.map Line.id) done.1
     stats := done.2.stats
     diff := .ofEntries entries },
    { r with cache := done.2.cache, lines := done.1, lastId := done.2.lastId })

def markDirtyFrom (r : Renderer σ) (index : Nat) : Renderer σ :=
  { r with lines := r.lines.take index ++ (r.lines.drop index).map Line.markDirty }

/-- Forgets lines and cache. Identities are still not given out twice. -/
def reset (r : Renderer σ) : Renderer σ := { r with cache := r.cache.clear, lines := [] }

def dirtyCount (r : Renderer σ) : Nat := r.lines.countP Line.dirty

def dirtyIndices (r : Renderer σ) : List Nat :=
  r.lines.zipIdx.filterMap fun (l, index) => if l.dirty then some index else none

/-- The indices of the lines that remember another state than the one handed to them. -/
def staleFrom (index : Nat) (inbound : σ) : List (Line σ) → List Nat
  | [] => []
  | l :: ls =>
    let rest := staleFrom (index + 1) l.outbound ls
    if l.inboundFingerprint = Fingerprint.of inbound then rest else index :: rest

def staleIndices (r : Renderer σ) : List Nat := staleFrom 0 r.tokenizer.initial r.lines

end Renderer
end Highlight
