import Highlight.Proofs.Renderer.Lockstep
import Highlight.Proofs.Renderer.Soundness
/-! # The cache is only an optimization

Two renderers that differ in the capacity of their caches go through the same lines, scripts and
counts, though at no time need their caches hold the same entries. Only whether a reading came from
the cache or from the tokenizer may differ. It rests on soundness: with a sound cache it makes no
difference where a reading comes from.
-/
namespace Highlight

variable {σ : Type}

/-- The counts with all readings counted as one. -/
def RenderStats.unsplit (s : RenderStats) : RenderStats :=
  { s with cacheHits := 0, tokenized := s.cacheHits + s.tokenized }

/-- The counts agree but for the split of the readings between cache and tokenizer. -/
structure RenderStats.SameButSplit (s t : RenderStats) : Prop where
  renderDirty : s.renderDirty = t.renderDirty
  reused : s.reused = t.reused
  markedStale : s.markedStale = t.markedStale
  placeholders : s.placeholders = t.placeholders
  readings : s.cacheHits + s.tokenized = t.cacheHits + t.tokenized

private theorem RenderStats.sameButSplit_of_unsplit {s t : RenderStats}
    (h : s.unsplit = t.unsplit) : s.SameButSplit t := by
  simp only [unsplit, RenderStats.mk.injEq] at h
  exact ⟨h.1, h.2.1, h.2.2.1, h.2.2.2.2.1, h.2.2.2.2.2⟩

namespace Renderer

/-- The passes have given out the same identities and counted the same, and their caches, whatever
they hold, are sound. -/
structure Pass.Alike (T : Tokenizer σ) (p q : Pass σ) : Prop where
  cache : p.cache.Sound T
  cache' : q.cache.Sound T
  lastId : p.lastId = q.lastId
  stats : p.stats.unsplit = q.stats.unsplit

namespace Pass

variable {T : Tokenizer σ} {p q : Pass σ}

private theorem Alike.countReused (h : p.Alike T q) : p.countReused.Alike T q.countReused := by
  have hstats := congrArg (fun s : RenderStats => { s with reused := s.reused + 1 }) h.stats
  exact ⟨h.cache, h.cache', h.lastId, hstats⟩

private theorem Alike.countStale (h : p.Alike T q) : p.countStale.Alike T q.countStale := by
  have hstats := congrArg
    (fun s : RenderStats => { s with markedStale := s.markedStale + 1 }) h.stats
  exact ⟨h.cache, h.cache', h.lastId, hstats⟩

private theorem Alike.countDirty (h : p.Alike T q) : p.countDirty.Alike T q.countDirty := by
  have hstats := congrArg
    (fun s : RenderStats => { s with renderDirty := s.renderDirty + 1 }) h.stats
  exact ⟨h.cache, h.cache', h.lastId, hstats⟩

private theorem Alike.leave [Fingerprint σ] (h : p.Alike T q) (text : Text) (inbound : σ) :
    Together (Alike T) (p.leave text inbound) (q.leave text inbound) := by
  have hstats :=
    congrArg (fun s : RenderStats => { s with placeholders := s.placeholders + 1 }) h.stats
  have hid := congrArg (· + 1) h.lastId
  constructor
  · exact congrArg (Line.placeholder · text inbound) hid
  · exact ⟨h.cache, h.cache', hid, hstats⟩

variable [DecidableEq σ] [Fingerprint σ]

private theorem read_unsplit (T : Tokenizer σ) (text : Text) (inbound : σ) (p : Pass σ) :
    (p.read T text inbound).2.stats.unsplit =
      { p.stats.unsplit with tokenized := p.stats.unsplit.tokenized + 1 } := by
  unfold read
  split
  · simp only [RenderStats.unsplit, RenderStats.mk.injEq, true_and]
    omega
  · simp only [RenderStats.unsplit, RenderStats.mk.injEq, true_and]
    omega

private theorem Alike.read (h : p.Alike T q) (text : Text) (inbound : σ) :
    Together (Alike T) (p.read T text inbound) (q.read T text inbound) := by
  obtain ⟨cache, stats, hcache, hp⟩ := read_eq h.cache text inbound
  obtain ⟨cache', stats', hcache', hq⟩ := read_eq h.cache' text inbound
  have hstats : (p.read T text inbound).2.stats.unsplit =
      (q.read T text inbound).2.stats.unsplit := by
    rw [read_unsplit, read_unsplit, h.stats]
  rw [hp, hq] at hstats ⊢
  have hid := congrArg (· + 1) h.lastId
  constructor
  · exact congrArg (Line.rendered · text inbound (T.tokenize text inbound)) hid
  · exact ⟨hcache, hcache', hid, hstats⟩

end Pass

/-- The renderers have the same tokenizer, lines and identities, and sound caches of any capacity
and contents. -/
structure Alike (r s : Renderer σ) : Prop where
  tokenizer : r.tokenizer = s.tokenizer
  cache : r.cache.Sound r.tokenizer
  cache' : s.cache.Sound s.tokenizer
  lines : r.lines = s.lines
  lastId : r.lastId = s.lastId

private theorem alike_ofTokenizer (T : Tokenizer σ) (capacity capacity' : Nat) :
    (ofTokenizer T capacity).Alike (ofTokenizer T capacity') :=
  ⟨rfl, Cache.sound_ofCapacity T capacity, Cache.sound_ofCapacity T capacity', rfl, rfl⟩

variable [DecidableEq σ] [Fingerprint σ]

/-- Passes that differ in what their caches hold stay alike. -/
theorem lockstep_alike (T : Tokenizer σ) : Lockstep T (Pass.Alike T) where
  countReused _ _ h := h.countReused
  countStale _ _ h := h.countStale
  countDirty _ _ h := h.countDirty
  leave _ _ h := h.leave
  read _ _ h := h.read

variable {r s : Renderer σ}

private theorem Alike.pass (h : r.Alike s) (texts : List Text) (window : Window)
    (mode : RenderMode) :
    (r.pass texts window mode).1 = (s.pass texts window mode).1 ∧
      (r.pass texts window mode).2.Alike r.tokenizer (s.pass texts window mode).2 := by
  have hwork : s.work texts = r.work texts := by rw [work, work, h.lines]
  have hstart : Pass.Alike r.tokenizer { cache := r.cache, lastId := r.lastId }
      { cache := s.cache, lastId := s.lastId } :=
    ⟨h.cache, h.tokenizer ▸ h.cache', h.lastId, rfl⟩
  rw [Renderer.pass, Renderer.pass, hwork, ← h.tokenizer]
  exact renderLines_together (r.work texts)
    (fun index text old? inbound _ _ h =>
      (lockstep_alike r.tokenizer).renderLine h window mode index text old? inbound)
    0 r.tokenizer.initial _ _ hstart

private theorem Alike.outcome (h : r.Alike s) (texts : List Text) (window : Window)
    (mode : RenderMode) :
    (r.render texts window mode).1.script = (s.render texts window mode).1.script ∧
      (r.render texts window mode).1.diff = (s.render texts window mode).1.diff ∧
      (r.render texts window mode).1.stats.SameButSplit (s.render texts window mode).1.stats := by
  obtain ⟨hlines, hpass⟩ := h.pass texts window mode
  refine ⟨?_, ?_, RenderStats.sameButSplit_of_unsplit hpass.stats⟩
  · change Patch.script _ (r.lines.map Line.id) (r.pass texts window mode).1 =
      Patch.script _ (s.lines.map Line.id) (s.pass texts window mode).1
    rw [hlines, h.lines]
  · change Diff.Stats.ofEntries (Diff.between (r.lines.map Line.text) texts) = _
    rw [h.lines]
    rfl

private theorem Alike.perform (h : r.Alike s) (request : Request) :
    (r.perform request).Alike (s.perform request) := by
  cases request with
  | render texts window mode =>
    obtain ⟨hlines, hpass⟩ := h.pass texts window mode
    exact ⟨h.tokenizer, hpass.cache, h.tokenizer ▸ hpass.cache', hlines, hpass.lastId⟩
  | markDirtyFrom index =>
    refine ⟨h.tokenizer, h.cache, h.cache', ?_, h.lastId⟩
    simp only [Renderer.perform, Renderer.markDirtyFrom, h.lines]
  | reset =>
    exact ⟨h.tokenizer, Cache.sound_clear _ _, Cache.sound_clear _ _, rfl, h.lastId⟩

private theorem Alike.run (h : r.Alike s) (requests : List Request) :
    (r.run requests).Alike (s.run requests) := by
  induction requests generalizing r s with
  | nil => exact h
  | cons request requests ih => exact ih (h.perform request)

/-- After any requests, renderers that differ only in the capacity of their caches have the very
same lines, and the next pass gives the same script, the same differences and the same counts, but
that what the one finds in its cache the other may have to tokenize. -/
theorem capacity_indifferent (T : Tokenizer σ) (capacity capacity' : Nat)
    (requests : List Request) :
    let r := (ofTokenizer T capacity).run requests
    let s := (ofTokenizer T capacity').run requests
    r.lines = s.lines ∧ ∀ texts window mode,
      let o := (r.render texts window mode).1
      let o' := (s.render texts window mode).1
      o.script = o'.script ∧ o.diff = o'.diff ∧ o.stats.SameButSplit o'.stats := by
  intro r s
  have halike : r.Alike s := (alike_ofTokenizer T capacity capacity').run requests
  exact ⟨halike.lines, halike.outcome⟩

end Renderer
end Highlight
