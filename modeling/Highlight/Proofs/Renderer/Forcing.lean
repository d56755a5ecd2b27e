import Highlight.Json.Language
import Highlight.Proofs.Renderer.Identity
import Highlight.Proofs.Renderer.Lockstep
/-! # The two forcing modes

Whether a forced pass reads a visible line again because it is dirty, or as if it were new, makes no
difference to the line. The modes go through the same lines with the same cache, and differ in what
they count as dirty or stale alone.
-/
namespace Highlight

variable {σ : Type}

private theorem Window.isBelow_of_contains {w : Window} {index : Nat}
    (h : w.contains index = true) : w.isBelow index = false := by
  rw [contains, Bool.and_eq_true, decide_eq_true_iff, decide_eq_true_iff] at h
  rw [isBelow, decide_eq_false_iff_not]
  exact Nat.not_lt.mpr h.2

/-- The counts agree but for the lines that were dirty or became stale. -/
structure RenderStats.SameButMarks (s t : RenderStats) : Prop where
  reused : s.reused = t.reused
  cacheHits : s.cacheHits = t.cacheHits
  placeholders : s.placeholders = t.placeholders
  tokenized : s.tokenized = t.tokenized

namespace Renderer

/-- The passes have the same cache, have given out the same identities, and differ in the marks that
they have counted alone. -/
structure Pass.SameButMarks (p q : Pass σ) : Prop where
  cache : p.cache = q.cache
  lastId : p.lastId = q.lastId
  stats : p.stats.SameButMarks q.stats

namespace Pass

variable {p q t : Pass σ}

private theorem SameButMarks.refl (p : Pass σ) : p.SameButMarks p := ⟨rfl, rfl, rfl, rfl, rfl, rfl⟩

private theorem SameButMarks.symm (h : p.SameButMarks q) : q.SameButMarks p :=
  ⟨h.cache.symm, h.lastId.symm, h.stats.reused.symm, h.stats.cacheHits.symm,
    h.stats.placeholders.symm, h.stats.tokenized.symm⟩

private theorem SameButMarks.trans (h : p.SameButMarks q) (h' : q.SameButMarks t) :
    p.SameButMarks t :=
  ⟨h.cache.trans h'.cache, h.lastId.trans h'.lastId, h.stats.reused.trans h'.stats.reused,
    h.stats.cacheHits.trans h'.stats.cacheHits, h.stats.placeholders.trans h'.stats.placeholders,
    h.stats.tokenized.trans h'.stats.tokenized⟩

private theorem sameButMarks_countStale (p : Pass σ) : p.SameButMarks p.countStale :=
  ⟨rfl, rfl, rfl, rfl, rfl, rfl⟩

private theorem sameButMarks_countDirty (p : Pass σ) : p.SameButMarks p.countDirty :=
  ⟨rfl, rfl, rfl, rfl, rfl, rfl⟩

private theorem SameButMarks.countReused (h : p.SameButMarks q) :
    p.countReused.SameButMarks q.countReused :=
  ⟨h.cache, h.lastId, congrArg (· + 1) h.stats.reused, h.stats.cacheHits, h.stats.placeholders,
    h.stats.tokenized⟩

private theorem SameButMarks.leave [Fingerprint σ] (h : p.SameButMarks q) (text : Text)
    (inbound : σ) : Together SameButMarks (p.leave text inbound) (q.leave text inbound) := by
  have hid := congrArg (· + 1) h.lastId
  constructor
  · exact congrArg (Line.placeholder · text inbound) hid
  · exact ⟨h.cache, hid, h.stats.reused, h.stats.cacheHits,
      congrArg (· + 1) h.stats.placeholders, h.stats.tokenized⟩

private theorem sameButMarks_meet [Fingerprint σ] (p : Pass σ) (old : Line σ) (inbound : σ) :
    p.SameButMarks (p.meet old inbound) := by
  unfold meet
  split
  · exact p.sameButMarks_countStale
  · exact .refl p

variable [DecidableEq σ] [Fingerprint σ]

private theorem SameButMarks.read (h : p.SameButMarks q) (T : Tokenizer σ) (text : Text)
    (inbound : σ) : Together SameButMarks (p.read T text inbound) (q.read T text inbound) := by
  have hid := congrArg (· + 1) h.lastId
  unfold Pass.read
  rw [h.cache]
  split
  · next result cache _ =>
    constructor
    · exact congrArg (Line.rendered · text inbound result) hid
    · exact ⟨rfl, hid, h.stats.reused, congrArg (· + 1) h.stats.cacheHits, h.stats.placeholders,
        h.stats.tokenized⟩
  · next cache _ =>
    constructor
    · exact congrArg (Line.rendered · text inbound (T.tokenize text inbound)) hid
    · exact ⟨rfl, hid, h.stats.reused, h.stats.cacheHits, h.stats.placeholders,
        congrArg (· + 1) h.stats.tokenized⟩

private theorem lockstep_sameButMarks (T : Tokenizer σ) : Lockstep T (SameButMarks (σ := σ)) where
  countReused _ _ h := h.countReused
  countStale p q h := (p.sameButMarks_countStale.symm.trans h).trans q.sameButMarks_countStale
  countDirty p q h := (p.sameButMarks_countDirty.symm.trans h).trans q.sameButMarks_countDirty
  leave _ _ h := h.leave
  read _ _ h := h.read T

end Pass

variable [DecidableEq σ] [Fingerprint σ] {T : Tokenizer σ} {window : Window} {mode : RenderMode} {index : Nat}
  {text : Text} {inbound : σ} {p q : Pass σ} {old? : Option (Line σ)}

private theorem LineStep.forced {next : Line σ × Pass σ}
    (h : LineStep T window mode index text inbound p old? next)
    (hmode : mode = .forceVisible ∨ mode = .forceVisibleAndDirty)
    (hvisible : window.contains index = true) :
    ∃ q, p.SameButMarks q ∧ next = q.read T text inbound := by
  have hneeded := Window.isBelow_of_contains hvisible
  cases h with
  | @kept old reuses settled =>
    -- An old line that may serve is dirty, so it would have to be below the window to stay.
    have hdirty : old.dirty = true := by
      rcases hmode with rfl | rfl
      · simp [RenderMode.reuses, hvisible] at reuses
      · simpa [RenderMode.reuses, hvisible] using reuses
    have hreached : (old.reachedBy inbound).dirty = true := by
      rcases old.reachedBy_eq inbound with heq | heq
      · rw [heq, hdirty]
      · rw [heq, Line.markDirty]
    rw [settled hreached] at hneeded
    contradiction
  | @refreshed old reuses dirty needed =>
    have hmeet := p.sameButMarks_meet old inbound
    exact ⟨_, hmeet.trans (Pass.sameButMarks_countDirty _), rfl⟩
  | left new notFull below =>
    rw [hneeded] at below
    contradiction
  | read new needed => exact ⟨p, .refl p, rfl⟩

private theorem renderLine_forced_of_not_contains (hhidden : window.contains index = false) :
    renderLine T window .forceVisible index text old? inbound p =
      renderLine T window .forceVisibleAndDirty index text old? inbound p := by
  cases old? with
  | none => rfl
  | some old =>
    simp only [renderLine, RenderMode.reuses, hhidden, Bool.not_false, Bool.true_or, if_pos]

private theorem renderLine_forced (h : p.SameButMarks q) :
    Together Pass.SameButMarks (renderLine T window .forceVisible index text old? inbound p)
      (renderLine T window .forceVisibleAndDirty index text old? inbound q) := by
  by_cases hvisible : window.contains index = true
  · obtain ⟨p', hp, hline⟩ :=
      (renderLine_step T window .forceVisible index text old? inbound p).forced (.inl rfl) hvisible
    obtain ⟨q', hq, hline'⟩ :=
      (renderLine_step T window .forceVisibleAndDirty index text old? inbound q).forced (.inr rfl)
        hvisible
    rw [hline, hline']
    exact ((hp.symm.trans h).trans hq).read T text inbound
  · rw [renderLine_forced_of_not_contains (by simpa using hvisible)]
    exact (Pass.lockstep_sameButMarks T).renderLine h window .forceVisibleAndDirty index text old?
      inbound

/-- The two modes make the same lines of the same texts. -/
theorem pass_forced (r : Renderer σ) (texts : List Text) (window : Window) :
    (r.pass texts window .forceVisible).1 = (r.pass texts window .forceVisibleAndDirty).1 ∧
      (r.pass texts window .forceVisible).2.SameButMarks
        (r.pass texts window .forceVisibleAndDirty).2 :=
  renderLines_together (r.work texts) (fun _ _ _ _ _ _ h => renderLine_forced h) 0
    r.tokenizer.initial _ _ (.refl _)

private theorem forced_lastId_lt (r : Renderer σ) (texts : List Text)
    (hmode : mode = .forceVisible ∨ mode = .forceVisibleAndDirty) {i : Nat} {l : Line σ}
    (hl : (r.render texts window mode).2.lines[i]? = some l)
    (hvisible : window.contains i = true) : r.lastId < l.id := by
  obtain ⟨w, q, next, -, hlast, hstep⟩ := r.pass_at_lastId hl
  obtain ⟨q', hq, hread⟩ := hstep.forced hmode hvisible
  have hid : l.id = q'.lastId + 1 :=
    (congrArg (fun next => next.1.id) hread).trans (Pass.read_id _ _ _ q').1
  rw [hid, ← hq.lastId]
  exact Nat.lt_succ_of_le hlast

/-- After any requests, a pass that forces the visible lines and one that tells the dirty ones among
them apart leave the very same renderer, lines, cache and identities included, with the same script
and the same differences, and count the same but for dirty and stale lines. Each line in the window
gets an identity in both that no line ever had. -/
theorem forced_passes_agree (T : Tokenizer σ) (capacity : Nat) (requests : List Request)
    (texts : List Text) (window : Window) :
    let r := (ofTokenizer T capacity).run requests
    let forced := r.render texts window .forceVisible
    let apart := r.render texts window .forceVisibleAndDirty
    (forced.2 = apart.2 ∧ forced.1.script = apart.1.script ∧ forced.1.diff = apart.1.diff ∧
      forced.1.stats.SameButMarks apart.1.stats) ∧
    ∀ mode, mode = .forceVisible ∨ mode = .forceVisibleAndDirty →
      let lines := (r.render texts window mode).2.lines
      (lines.map Line.id).Nodup ∧
      ∀ i l, lines[i]? = some l → window.contains i = true →
        ∀ earlier, earlier <+: requests →
          ∀ m ∈ ((ofTokenizer T capacity).run earlier).lines, m.id ≠ l.id := by
  intro r forced apart
  constructor
  · obtain ⟨hlines, hpass⟩ := pass_forced r texts window
    refine ⟨?_, ?_, rfl, hpass.stats⟩
    · change { r with
        cache := (r.pass texts window .forceVisible).2.cache
        lines := (r.pass texts window .forceVisible).1
        lastId := (r.pass texts window .forceVisible).2.lastId } = apart.2
      rw [hlines, hpass.cache, hpass.lastId]
      rfl
    · change Patch.script (Diff.between (r.lines.map Line.text) texts) (r.lines.map Line.id)
        (r.pass texts window .forceVisible).1 = apart.1.script
      rw [hlines]
      rfl
  · intro mode hmode lines
    obtain ⟨hnumbered, hdistinct⟩ := numbered_distinct_run T capacity requests
    refine ⟨hdistinct.render hnumbered texts window mode, ?_⟩
    intro i l hl hvisible earlier hearlier m hm
    have hnew := r.forced_lastId_lt texts hmode hl hvisible
    have hle := id_le_lastId T capacity hearlier m hm
    exact Nat.ne_of_lt (Nat.lt_of_le_of_lt hle hnew)

/-- An object becomes an array while the number in it is dirty. One mode reads the number as if it
were new, the other finds it dirty and out of date; the text behind the window is stale in both. -/
theorem forced_passes_agree_dirty :
    let r := (ofTokenizer Json.language.tokenizer 4).run
      [.render [['{'], ['1'], ['2']] ⟨0, 2⟩ .partly, .markDirtyFrom 1]
    let forced := r.render [['['], ['1'], ['2']] ⟨0, 1⟩ .forceVisible
    let apart := r.render [['['], ['1'], ['2']] ⟨0, 1⟩ .forceVisibleAndDirty
    let array : Json.State := { brackets := [.array] }
    let renewed := Line.rendered 5 ['1'] array ⟨[⟨.number, ['1']⟩], array⟩
    forced.2 = apart.2 ∧
      (forced.1.stats.renderDirty, forced.1.stats.markedStale) = (0, 1) ∧
      (apart.1.stats.renderDirty, apart.1.stats.markedStale) = (1, 2) ∧
      apart.2.lines[1]? = some renewed ∧ (⟨0, 1⟩ : Window).contains 1 = true ∧
      ∀ m ∈ r.lines, m.id ≠ renewed.id := by
  intro r forced apart array renewed
  have hforced : (forced.1.stats.renderDirty, forced.1.stats.markedStale) = (0, 1) := by
    decide +kernel
  have hapart : (apart.1.stats.renderDirty, apart.1.stats.markedStale) = (1, 2) := by
    decide +kernel
  have hrenewed : apart.2.lines[1]? = some renewed := by decide +kernel
  obtain ⟨⟨hsame, -⟩, hfresh⟩ := forced_passes_agree Json.language.tokenizer 4
    [.render [['{'], ['1'], ['2']] ⟨0, 2⟩ .partly, .markDirtyFrom 1] [['['], ['1'], ['2']] ⟨0, 1⟩
  have hnew := (hfresh .forceVisibleAndDirty (.inr rfl)).2 1 renewed hrenewed (by decide) _
    (List.prefix_refl _)
  exact ⟨hsame, hforced, hapart, hrenewed, by decide, hnew⟩

end Renderer
end Highlight
