import Highlight.Json.Language
import Highlight.Proofs.Renderer.Identity
/-! # The counts of a pass

A pass is counted from four sides: its lines by what was done with them, the diff by its entries,
the script by its patches, and the questions that the cache was asked. The counts agree, because a
line that counts as reused is told by its identity: it has that of the old line which the pass was
handed for it. The script keeps the same lines.
-/
namespace Highlight

variable {σ : Type}

/-- The line has the identity of the old one. -/
def Line.isKept (old? : Option (Line σ)) (l : Line σ) : Bool := old?.any (·.id == l.id)

def Line.keptCount (olds : List (Option (Line σ))) (lines : List (Line σ)) : Nat :=
  (olds.zip lines).countP fun w => w.2.isKept w.1

private theorem Line.keptCount_cons (old? : Option (Line σ)) (olds : List (Option (Line σ)))
    (l : Line σ) (lines : List (Line σ)) :
    keptCount (old? :: olds) (l :: lines) =
      keptCount olds lines + if l.isKept old? then 1 else 0 := List.countP_cons

private theorem Diff.Replay.count_previous {α : Type} {es : List Diff.Entry} {ps cs : List α}
    (h : Diff.Replay es ps cs) :
    es.count .modified + es.count .same + es.count .removed = ps.length := by
  induction h with
  | done => rfl
  | same | modified | added | removed =>
    simp only [List.count_cons, List.length_cons]
    simp
    omega

namespace Patch

/-- Between the two sums are the patches for some entries and a number of kept lines. -/
structure Stats.Adds (s t : Stats) (es : List Diff.Entry) (kept : Nat) : Prop where
  keep : t.keep = s.keep + kept
  insert : t.insert = s.insert + es.count .added
  remove : t.remove = s.remove + es.count .removed
  replace : t.replace + kept = s.replace + es.count .modified + es.count .same
  kept_le : kept ≤ es.count .same

private theorem Stats.Adds.refl (s : Stats) : s.Adds s [] 0 := ⟨rfl, rfl, rfl, rfl, Nat.le_refl _⟩

private theorem Stats.Adds.trans {s t u : Stats} {es es' : List Diff.Entry} {kept kept' : Nat}
    (h : s.Adds t es kept) (h' : t.Adds u es' kept') : s.Adds u (es ++ es') (kept' + kept) := by
  obtain ⟨hkeep, hinsert, hremove, hreplace, hle⟩ := h
  obtain ⟨hkeep', hinsert', hremove', hreplace', hle'⟩ := h'
  have hcount : ∀ e, (es ++ es').count e = es.count e + es'.count e := fun _ => List.count_append
  constructor
  all_goals
    have hadded := hcount .added
    have hremoved := hcount .removed
    have hmodified := hcount .modified
    have hsame := hcount .same
    omega

/-- A line that was not edited is kept or replaced. -/
theorem Stats.adds_refresh (s : Stats) (index : Nat) (old l : Line σ) :
    s.Adds (s.count ⟨index, refresh old.id l⟩) [.same] (if l.isKept (some old) then 1 else 0) := by
  by_cases hid : old.id = l.id
  · have hkept : l.isKept (some old) = true := beq_iff_eq.mpr hid
    rw [refresh, if_pos hid, if_pos hkept]
    exact ⟨rfl, rfl, rfl, rfl, Nat.le_refl 1⟩
  · have hkept : ¬ l.isKept (some old) = true := fun h => hid (beq_iff_eq.mp h)
    rw [refresh, if_neg hid, if_neg hkept]
    exact ⟨rfl, rfl, rfl, rfl, Nat.zero_le 1⟩

private theorem foldl_count_scriptFrom {es : List Diff.Entry} {olds : List (Line σ)}
    {texts : List Text} (h : Diff.Replay es (olds.map Line.text) texts) {lines : List (Line σ)}
    (hlength : lines.length = texts.length) (index : Nat) (s : Stats) :
    s.Adds ((scriptFrom index es (olds.map Line.id) lines).foldl Stats.count s) es
      (Line.keptCount (Renderer.align es olds) lines) := by
  generalize hps : olds.map Line.text = ps at h
  induction h generalizing olds lines index s with
  | done =>
    obtain rfl := List.map_eq_nil_iff.mp hps
    exact .refl s
  | same x _ ih =>
    obtain ⟨old, olds, rfl, -, htail⟩ := List.map_eq_cons_iff.mp hps
    obtain ⟨l, lines, rfl⟩ := List.exists_cons_of_length_eq_add_one hlength
    rw [Renderer.align, Line.keptCount_cons]
    exact (s.adds_refresh index old l).trans (ih (Nat.succ.inj hlength) (index + 1) _ htail)
  | modified _ _ _ _ ih =>
    obtain ⟨old, olds, rfl, -, htail⟩ := List.map_eq_cons_iff.mp hps
    obtain ⟨l, lines, rfl⟩ := List.exists_cons_of_length_eq_add_one hlength
    have hone : s.Adds (s.count ⟨index, .replace l⟩) [.modified] 0 :=
      ⟨rfl, rfl, rfl, rfl, Nat.le_refl 0⟩
    rw [Renderer.align, Line.keptCount_cons]
    exact hone.trans (ih (Nat.succ.inj hlength) (index + 1) _ htail)
  | added c _ ih =>
    obtain ⟨l, lines, rfl⟩ := List.exists_cons_of_length_eq_add_one hlength
    have hone : s.Adds (s.count ⟨index, .insert l⟩) [.added] 0 :=
      ⟨rfl, rfl, rfl, rfl, Nat.le_refl 0⟩
    rw [Renderer.align, Line.keptCount_cons]
    exact hone.trans (ih (Nat.succ.inj hlength) (index + 1) _ hps)
  | removed p _ ih =>
    obtain ⟨old, olds, rfl, -, htail⟩ := List.map_eq_cons_iff.mp hps
    have hone : s.Adds (s.count (⟨index, .remove⟩ : Patch σ)) [.removed] 0 :=
      ⟨rfl, rfl, rfl, rfl, Nat.le_refl 0⟩
    rw [Renderer.align]
    exact hone.trans (ih hlength index _ htail)

end Patch

private theorem Cache.store_asked [DecidableEq σ] (c : Cache σ) (text : Text) (inbound : σ)
    (result : LineTokens σ) :
    (c.store text inbound result).hits = c.hits ∧
      (c.store text inbound result).misses = c.misses := by
  rw [store]
  dsimp only
  split
  · exact ⟨rfl, rfl⟩
  · exact ⟨rfl, rfl⟩

/-- The lines that are counted. -/
def RenderStats.lines (s : RenderStats) : Nat :=
  s.reused + s.placeholders + s.cacheHits + s.tokenized

def RenderStats.readings (s : RenderStats) : Nat := s.cacheHits + s.tokenized

namespace Renderer

/-- What a pass counts on its way from one place to another, where it comes by a number of lines, of
which some are kept and no more are read than some bound. -/
structure Pass.Counts (p q : Pass σ) (lines kept bound : Nat) : Prop where
  lines : q.stats.lines = p.stats.lines + lines
  kept : q.stats.reused = p.stats.reused + kept
  readings : q.stats.readings ≤ p.stats.readings + bound
  hits : q.cache.hits + p.stats.cacheHits = p.cache.hits + q.stats.cacheHits
  misses : q.cache.misses + p.stats.tokenized = p.cache.misses + q.stats.tokenized

namespace Pass

variable {p q t : Pass σ} {lines kept bound lines' kept' bound' : Nat}

private theorem Counts.refl (p : Pass σ) : p.Counts p 0 0 0 := ⟨rfl, rfl, Nat.le_refl _, rfl, rfl⟩

private theorem Counts.trans (h : p.Counts q lines kept bound)
    (h' : q.Counts t lines' kept' bound') :
    p.Counts t (lines' + lines) (kept' + kept) (bound' + bound) := by
  obtain ⟨hlines, hkept, hreadings, hhits, hmisses⟩ := h
  obtain ⟨hlines', hkept', hreadings', hhits', hmisses'⟩ := h'
  constructor
  all_goals omega

private theorem counts_countReused (p : Pass σ) (bound : Nat) :
    p.Counts p.countReused 1 1 bound := by
  refine ⟨?_, rfl, Nat.le_add_right _ _, rfl, rfl⟩
  change p.stats.reused + 1 + p.stats.placeholders + p.stats.cacheHits + p.stats.tokenized =
    p.stats.lines + 1
  rw [RenderStats.lines]
  omega

private theorem counts_leave [Fingerprint σ] (p : Pass σ) (text : Text) (inbound : σ)
    (bound : Nat) : p.Counts (p.leave text inbound).2 1 0 bound := by
  refine ⟨?_, rfl, Nat.le_add_right _ _, rfl, rfl⟩
  change p.stats.reused + (p.stats.placeholders + 1) + p.stats.cacheHits + p.stats.tokenized =
    p.stats.lines + 1
  rw [RenderStats.lines]
  omega

private theorem counts_meet [Fingerprint σ] (p : Pass σ) (old : Line σ) (inbound : σ) :
    p.Counts (p.meet old inbound) 0 0 0 := by
  unfold meet
  split
  · exact ⟨rfl, rfl, Nat.le_refl _, rfl, rfl⟩
  · exact .refl p

variable [DecidableEq σ] [Fingerprint σ]

private theorem counts_read (T : Tokenizer σ) (text : Text) (inbound : σ) (p : Pass σ) :
    p.Counts (p.read T text inbound).2 1 0 1 := by
  rcases hfind : p.cache.find? text inbound with _ | e
  · have hlookup : p.cache.lookup text inbound =
        (none, { p.cache with misses := p.cache.misses + 1 }) := by rw [Cache.lookup, hfind]
    obtain ⟨hhits, hmisses⟩ := Cache.store_asked { p.cache with misses := p.cache.misses + 1 } text
      inbound (T.tokenize text inbound)
    rw [read, hlookup]
    refine ⟨rfl, rfl, Nat.le_refl _, ?_, ?_⟩
    · exact congrArg (· + p.stats.cacheHits) hhits
    · rw [hmisses]
      exact Nat.add_right_comm _ _ _
  · have hlookup : p.cache.lookup text inbound = (some e.result, { p.cache with
        entries := e :: p.cache.others text inbound
        hits := p.cache.hits + 1 }) := by rw [Cache.lookup, hfind]
    rw [read, hlookup]
    refine ⟨?_, rfl, Nat.le_of_eq (Nat.add_right_comm _ _ _), Nat.add_right_comm _ _ _, rfl⟩
    change p.stats.reused + p.stats.placeholders + (p.stats.cacheHits + 1) + p.stats.tokenized =
      p.stats.lines + 1
    rw [RenderStats.lines]
    omega

end Pass

variable [DecidableEq σ] [Fingerprint σ]

/-- A line that is handed an old one has its identity only if it is kept: every other identity is
given out anew. Below the window no line is read, unless all are. -/
theorem LineStep.counts {T : Tokenizer σ} {window : Window} {mode : RenderMode} {index : Nat}
    {text : Text} {inbound : σ} {p : Pass σ} {old? : Option (Line σ)} {next : Line σ × Pass σ}
    (h : LineStep T window mode index text inbound p old? next)
    (hold : ∀ old ∈ old?, old.id ≤ p.lastId) :
    p.Counts next.2 1 (if next.1.isKept old? then 1 else 0)
      (if mode = .full ∨ window.isBelow index = false then 1 else 0) := by
  have hfresh : next.1.id = p.lastId + 1 → ¬ next.1.isKept old? = true := by
    intro hid hkept
    obtain ⟨old, hmem, heq⟩ := (Option.any_eq_true _ _).mp hkept
    have hle := hold old hmem
    have heq : old.id = next.1.id := beq_iff_eq.mp heq
    omega
  cases h with
  | @kept old reuses settled =>
    have hkept : (old.reachedBy inbound).isKept (some old) = true := by
      rcases old.reachedBy_eq inbound with heq | heq
      · rw [heq]
        exact beq_self_eq_true _
      · rw [heq]
        exact beq_self_eq_true _
    rw [if_pos hkept]
    exact (p.counts_meet old inbound).trans (Pass.counts_countReused _ _)
  | @refreshed old reuses dirty needed =>
    have hmeet := p.counts_meet old inbound
    have hcount : p.Counts (p.meet old inbound).countDirty 0 0 0 :=
      ⟨hmeet.lines, hmeet.kept, hmeet.readings, hmeet.hits, hmeet.misses⟩
    have hid : ((p.meet old inbound).countDirty.read T text inbound).1.id = p.lastId + 1 :=
      (Pass.read_id T text inbound _).1.trans (congrArg (· + 1) (p.meet_lastId old inbound))
    rw [if_neg (hfresh hid), if_pos (.inr needed)]
    exact hcount.trans (Pass.counts_read T text inbound _)
  | left new notFull below =>
    rw [if_neg (hfresh rfl)]
    exact p.counts_leave text inbound _
  | read new needed =>
    rw [if_neg (hfresh (Pass.read_id T text inbound p).1), if_pos needed]
    exact p.counts_read T text inbound

/-- How many of `n` lines from an index on a pass may read. -/
def readable (window : Window) (mode : RenderMode) (index n : Nat) : Nat :=
  if mode = .full then n else min n (window.last + 1 - index)

omit [DecidableEq σ] [Fingerprint σ] in
private theorem readable_succ (window : Window) (mode : RenderMode) (index n : Nat) :
    readable window mode index (n + 1) = readable window mode (index + 1) n +
      if mode = .full ∨ window.isBelow index = false then 1 else 0 := by
  by_cases hfull : mode = .full
  · rw [readable, readable, if_pos hfull, if_pos hfull, if_pos (.inl hfull)]
  · rw [readable, readable, if_neg hfull, if_neg hfull]
    by_cases hbelow : window.last < index
    · have hno : ¬ (mode = .full ∨ window.isBelow index = false) := by
        simpa [hfull, Window.isBelow] using hbelow
      rw [if_neg hno]
      omega
    · have hyes : mode = .full ∨ window.isBelow index = false := by
        simpa [hfull, Window.isBelow] using hbelow
      rw [if_pos hyes]
      omega

private theorem renderLines_counts {T : Tokenizer σ} {window : Window} {mode : RenderMode}
    (work : List (Text × Option (Line σ))) (index : Nat) (inbound : σ) (p : Pass σ)
    (hold : ∀ w ∈ work, ∀ old ∈ w.2, old.id ≤ p.lastId) :
    p.Counts (renderLines T window mode index inbound p work).2 work.length
      (Line.keptCount (work.map Prod.snd) (renderLines T window mode index inbound p work).1)
      (readable window mode index work.length) := by
  induction work generalizing index inbound p with
  | nil =>
    have hzero : readable window mode index 0 = 0 := by
      rw [readable, Nat.zero_min, ite_self]
    rw [renderLines, List.length_nil, hzero]
    exact .refl p
  | cons w work ih =>
    have hstep := renderLine_step T window mode index w.1 w.2 inbound p
    have hrest := ih (index + 1) (renderLine T window mode index w.1 w.2 inbound p).1.outbound
      (renderLine T window mode index w.1 w.2 inbound p).2
      fun v hv old ho => Nat.le_trans (hold v (List.mem_cons_of_mem w hv) old ho) hstep.lastId_le
    rw [renderLines, List.length_cons, readable_succ, List.map_cons, Line.keptCount_cons]
    exact (hstep.counts (hold w List.mem_cons_self)).trans hrest

private theorem LineStep.unread {T : Tokenizer σ} {window : Window} {mode : RenderMode}
    {index : Nat}
    {text : Text} {inbound : σ} {p : Pass σ} {old? : Option (Line σ)} {next : Line σ × Pass σ}
    (h : LineStep T window mode index text inbound p old? next) (hmode : mode ≠ .full)
    (hbelow : window.last < index) :
    (∃ old ∈ old?, old.Shows next.1) ∨
      next.1 = .placeholder next.1.id next.1.text next.1.outbound := by
  have hno : window.isBelow index ≠ false := by simpa [Window.isBelow] using hbelow
  cases h with
  | @kept old reuses settled => exact .inl ⟨old, rfl, old.shows_reachedBy inbound⟩
  | refreshed reuses dirty needed => exact absurd needed hno
  | left new notFull below => exact .inr rfl
  | read new needed => exact absurd (needed.resolve_left hmode) hno

omit [DecidableEq σ] [Fingerprint σ] in
private theorem work_olds (r : Renderer σ) (texts : List Text) :
    (r.work texts).map Prod.snd = align (Diff.between (r.lines.map Line.text) texts) r.lines := by
  have h := align_forall₂ (Diff.between_replay (r.lines.map Line.text) texts)
  rw [work, List.map_snd_zip]
  exact Nat.le_of_eq h.length_eq.symm

private theorem Numbered.pass_counts {r : Renderer σ} (h : r.Numbered) (texts : List Text)
    (window : Window) (mode : RenderMode) :
    Pass.Counts { cache := r.cache, lastId := r.lastId } (r.pass texts window mode).2 texts.length
      (Line.keptCount (align (Diff.between (r.lines.map Line.text) texts) r.lines)
        (r.pass texts window mode).1)
      (readable window mode 0 texts.length) := by
  have hcounts : Pass.Counts _ (r.pass texts window mode).2 (r.work texts).length
      (Line.keptCount ((r.work texts).map Prod.snd) (r.pass texts window mode).1)
      (readable window mode 0 (r.work texts).length) :=
    renderLines_counts (r.work texts) 0 r.tokenizer.initial
      { cache := r.cache, lastId := r.lastId }
      fun w hw old ho => h old (old_of_mem_work hw old ho).1
  have hlength : (r.work texts).length = texts.length := by
    rw [← List.length_map Prod.fst, work_texts]
  rwa [work_olds, hlength] at hcounts

/-- After any requests, the counts of a pass over some texts agree. Each text is reused, left as a
placeholder, found in the cache or tokenized. The script keeps as many lines as are reused, inserts
and removes as many as the diff adds and removes, and replaces the other ones; all but the inserts
take the lines of the pass before. The cache counts as hits and misses what was found and what was
tokenized. Unless the pass is a full one, no more lines are read than there are up to the end of the
window, and every line below it is one from before, perhaps out of date now, or a placeholder. -/
theorem counts_agree (T : Tokenizer σ) (capacity : Nat) (requests : List Request)
    (texts : List Text) (window : Window) (mode : RenderMode) :
    let r := (ofTokenizer T capacity).run requests
    let pass := r.render texts window mode
    let stats := pass.1.stats
    let diff := pass.1.diff
    let patches := Patch.Stats.ofScript pass.1.script
    stats.reused + stats.placeholders + stats.cacheHits + stats.tokenized = texts.length ∧
    stats.reused ≤ diff.same ∧
    patches = { keep := stats.reused, insert := diff.added, remove := diff.removed,
                replace := diff.modified + diff.same - stats.reused } ∧
    patches.keep + patches.replace + patches.remove = r.lines.length ∧
    pass.2.cache.hits = r.cache.hits + stats.cacheHits ∧
    pass.2.cache.misses = r.cache.misses + stats.tokenized ∧
    (mode ≠ .full →
      stats.cacheHits + stats.tokenized ≤ min texts.length (window.last + 1) ∧
      ∀ i l, pass.2.lines[i]? = some l → window.last < i →
        (∃ old ∈ r.lines, old.Shows l) ∨ l = .placeholder l.id l.text l.outbound) := by
  intro r pass stats diff patches
  let kept := Line.keptCount (align (Diff.between (r.lines.map Line.text) texts) r.lines)
    pass.2.lines
  have hnumbered : r.Numbered := (numbered_distinct_run T capacity requests).1
  have hreplay := Diff.between_replay (r.lines.map Line.text) texts
  have hlines : pass.2.lines.length = texts.length := by
    rw [← List.length_map Line.text, r.render_texts]
  have hcounts := hnumbered.pass_counts texts window mode
  have hadds := Patch.foldl_count_scriptFrom hreplay hlines 0 {}
  have hcount : stats.lines = 0 + texts.length := hcounts.lines
  have hreused : stats.reused = 0 + kept := hcounts.kept
  have hread : stats.readings ≤ 0 + readable window mode 0 texts.length := hcounts.readings
  have hkeep : patches.keep = 0 + kept := hadds.keep
  have hinsert : patches.insert = 0 + diff.added := hadds.insert
  have hremove : patches.remove = 0 + diff.removed := hadds.remove
  have hreplace : patches.replace + kept = 0 + diff.modified + diff.same := hadds.replace
  have hle : kept ≤ diff.same := hadds.kept_le
  have hprevious : diff.modified + diff.same + diff.removed = r.lines.length := by
    rw [← List.length_map Line.text]
    exact hreplay.count_previous
  refine ⟨hcount.trans (Nat.zero_add _), by omega, ?_, by omega, hcounts.hits, hcounts.misses, ?_⟩
  · change (⟨patches.keep, patches.insert, patches.remove, patches.replace⟩ : Patch.Stats) = _
    congr 1
    all_goals omega
  · intro hmode
    rw [readable, if_neg hmode, Nat.zero_add] at hread
    refine ⟨hread, ?_⟩
    intro i l hl hbelow
    obtain ⟨w, q, next, hw, -, hstep⟩ :=
      r.pass_at (I := fun _ => True) (fun _ _ _ _ _ h => h) trivial hl
    rcases hstep.unread hmode hbelow with ⟨old, hold, hshows⟩ | hunread
    · exact .inl ⟨old, (old_of_mem_work (List.mem_of_getElem? hw) old hold).1, hshows⟩
    · exact .inr hunread

/-- An array becomes an object again while its numbers are out of sight, and a number comes in above
them. The bracket is in the cache, the new number is not, the old one stays, and what stands below
it is edited: every count but that of dirty lines is one or two. -/
theorem counts_agree_mixed :
    let r := (ofTokenizer Json.language.tokenizer 8).run
      [.render [['{'], ['1'], ['2'], ['3']] ⟨0, 3⟩ .partly,
        .render [['['], ['1'], ['2'], ['3']] ⟨0, 0⟩ .partly]
    let pass := r.render [['{'], ['0'], ['1'], ['9']] ⟨0, 1⟩ .partly
    let stats := pass.1.stats
    let patches := Patch.Stats.ofScript pass.1.script
    (stats.reused, stats.placeholders, stats.cacheHits, stats.tokenized) = (1, 1, 1, 1) ∧
    pass.1.diff = ⟨1, 1, 1, 2⟩ ∧ patches = ⟨1, 1, 1, 2⟩ ∧
    stats.reused + stats.placeholders + stats.cacheHits + stats.tokenized = 4 ∧
    patches.keep + patches.replace + patches.remove = r.lines.length ∧
    (RenderMode.partly ≠ .full ∧ stats.cacheHits + stats.tokenized ≤ min 4 (1 + 1) ∧
      ∀ i l, pass.2.lines[i]? = some l → 1 < i →
        (∃ old ∈ r.lines, old.Shows l) ∨ l = .placeholder l.id l.text l.outbound) := by
  intro r pass stats patches
  have hstats : (stats.reused, stats.placeholders, stats.cacheHits, stats.tokenized) =
      (1, 1, 1, 1) := by decide +kernel
  have hdiff : pass.1.diff = ⟨1, 1, 1, 2⟩ := by decide +kernel
  have hpatches : patches = ⟨1, 1, 1, 2⟩ := by decide +kernel
  have hmode : RenderMode.partly ≠ .full := by decide
  obtain ⟨hlines, -, -, hprevious, -, -, hpartly⟩ := counts_agree Json.language.tokenizer 8
    [.render [['{'], ['1'], ['2'], ['3']] ⟨0, 3⟩ .partly,
      .render [['['], ['1'], ['2'], ['3']] ⟨0, 0⟩ .partly]
    [['{'], ['0'], ['1'], ['9']] ⟨0, 1⟩ .partly
  exact ⟨hstats, hdiff, hpatches, hlines, hprevious, hmode, hpartly hmode⟩

end Renderer
end Highlight
