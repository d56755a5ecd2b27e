import Highlight.Proofs.Diff.Replay
import Highlight.Renderer
import Mathlib.Data.List.Forall2
/-! # One line of a render pass

What a pass can do with a line, which old line it is handed for it, and how a fact about single
lines carries over to a whole pass. All of it holds whatever the fingerprints are.
-/
namespace Highlight

variable {σ : Type}

/-- The state that is handed to the line below some lines, the first of which a state reaches. -/
def Line.handover (st : σ) (above : List (Line σ)) : σ := (above.getLast?.map Line.outbound).getD st

theorem Line.handover_cons (st : σ) (l : Line σ) (above : List (Line σ)) :
    handover st (l :: above) = handover l.outbound above := by
  rw [handover, handover, List.getLast?_cons]
  cases above.getLast? <;> rfl

theorem Line.handover_take_succ (st : σ) {lines : List (Line σ)} {i : Nat} {l : Line σ}
    (h : lines[i]? = some l) : handover st (lines.take (i + 1)) = l.outbound := by
  rw [handover, List.take_add_one, h, Option.toList_some, List.getLast?_concat]
  rfl

section

variable [Fingerprint σ]

/-- A line that a state reaches. It is out of date if it remembers another one. -/
def Line.reachedBy (l : Line σ) (inbound : σ) : Line σ :=
  if l.inboundFingerprint ≠ Fingerprint.of inbound then l.markDirty else l

theorem Line.reachedBy_eq (l : Line σ) (inbound : σ) :
    l.reachedBy inbound = l ∨ l.reachedBy inbound = l.markDirty := by
  by_cases h : l.inboundFingerprint = Fingerprint.of inbound
  · left
    simp [reachedBy, h]
  · right
    simp [reachedBy, h]

theorem Line.reachedBy_of_clean {l : Line σ} {inbound : σ}
    (h : (l.reachedBy inbound).dirty = false) :
    l.reachedBy inbound = l ∧ l.inboundFingerprint = Fingerprint.of inbound := by
  by_cases hin : l.inboundFingerprint = Fingerprint.of inbound
  · exact ⟨by simp [reachedBy, hin], hin⟩
  · simp [reachedBy, hin, markDirty] at h

private theorem Line.reachedBy_text (l : Line σ) (inbound : σ) :
    (l.reachedBy inbound).text = l.text := by
  rcases l.reachedBy_eq inbound with heq | heq
  · rw [heq]
  · rw [heq]
    rfl

end

namespace Renderer

def Pass.meet [Fingerprint σ] (p : Pass σ) (old : Line σ) (inbound : σ) : Pass σ :=
  if old.inboundFingerprint ≠ Fingerprint.of inbound then p.countStale else p

section

variable [Fingerprint σ]

@[simp] theorem Pass.meet_cache (p : Pass σ) (old : Line σ) (inbound : σ) :
    (p.meet old inbound).cache = p.cache := by
  unfold meet
  split <;> rfl

@[simp] theorem Pass.meet_lastId (p : Pass σ) (old : Line σ) (inbound : σ) :
    (p.meet old inbound).lastId = p.lastId := by
  unfold meet
  split <;> rfl

variable [DecidableEq σ]

theorem Pass.read_rendered (T : Tokenizer σ) (text : Text) (inbound : σ) (p : Pass σ) :
    ∃ result, (p.read T text inbound).1 = .rendered (p.lastId + 1) text inbound result := by
  unfold read
  split
  · exact ⟨_, rfl⟩
  · exact ⟨_, rfl⟩

/-- All that a pass can do with a line for which it has perhaps an old one. -/
inductive LineStep (T : Tokenizer σ) (window : Window) (mode : RenderMode) (index : Nat)
    (text : Text) (inbound : σ) (p : Pass σ) : Option (Line σ) → Line σ × Pass σ → Prop
  | kept {old : Line σ} (reuses : mode.reuses (window.contains index) old.dirty = true)
      (settled : (old.reachedBy inbound).dirty = true → window.isBelow index = true) :
      LineStep T window mode index text inbound p (some old)
        (old.reachedBy inbound, (p.meet old inbound).countReused)
  /-- The old line is out of date and needed. -/
  | refreshed {old : Line σ} (reuses : mode.reuses (window.contains index) old.dirty = true)
      (dirty : (old.reachedBy inbound).dirty = true) (needed : window.isBelow index = false) :
      LineStep T window mode index text inbound p (some old)
        ((p.meet old inbound).countDirty.read T text inbound)
  /-- There is no line to keep, and none is needed yet. -/
  | left {old? : Option (Line σ)}
      (new : ∀ old ∈ old?, mode.reuses (window.contains index) old.dirty = false)
      (notFull : mode ≠ .full) (below : window.isBelow index = true) :
      LineStep T window mode index text inbound p old? (p.leave text inbound)
  | read {old? : Option (Line σ)}
      (new : ∀ old ∈ old?, mode.reuses (window.contains index) old.dirty = false)
      (needed : mode = .full ∨ window.isBelow index = false) :
      LineStep T window mode index text inbound p old? (p.read T text inbound)

private theorem renderNew_step (T : Tokenizer σ) (window : Window) (mode : RenderMode) (index : Nat)
    (text : Text) {old? : Option (Line σ)} (inbound : σ) (p : Pass σ)
    (new : ∀ old ∈ old?, mode.reuses (window.contains index) old.dirty = false) :
    LineStep T window mode index text inbound p old?
      (renderNew T mode (window.isBelow index) text inbound p) := by
  unfold renderNew
  split
  · rename_i h
    have h : mode ≠ .full ∧ window.isBelow index = true := by simpa using h
    exact .left new h.1 h.2
  · rename_i h
    have hneeded : mode = .full ∨ window.isBelow index = false := by
      by_cases hmode : mode = .full
      · exact .inl hmode
      · exact .inr (by simpa [hmode] using h)
    exact .read new hneeded

private theorem renderOld_step (T : Tokenizer σ) (window : Window) (mode : RenderMode) (index : Nat)
    (text : Text) (old : Line σ) (inbound : σ) (p : Pass σ)
    (reuses : mode.reuses (window.contains index) old.dirty = true) :
    LineStep T window mode index text inbound p (some old)
      (renderOld T (window.isBelow index) old text inbound p) := by
  change LineStep T window mode index text inbound p (some old)
    (if (old.reachedBy inbound).dirty && !window.isBelow index then
      (p.meet old inbound).countDirty.read T text inbound
    else (old.reachedBy inbound, (p.meet old inbound).countReused))
  split
  · rename_i h
    have h : (old.reachedBy inbound).dirty = true ∧ window.isBelow index = false := by simpa using h
    exact .refreshed reuses h.1 h.2
  · rename_i h
    apply LineStep.kept reuses
    intro hdirty
    simpa [hdirty] using h

theorem renderLine_step (T : Tokenizer σ) (window : Window) (mode : RenderMode) (index : Nat)
    (text : Text) (old? : Option (Line σ)) (inbound : σ) (p : Pass σ) :
    LineStep T window mode index text inbound p old?
      (renderLine T window mode index text old? inbound p) := by
  cases old? with
  | none => exact renderNew_step T window mode index text inbound p (by simp)
  | some old =>
    by_cases h : mode.reuses (window.contains index) old.dirty = true
    · have hline : renderLine T window mode index text (some old) inbound p =
          renderOld T (window.isBelow index) old text inbound p := by simp [renderLine, h]
      rw [hline]
      exact renderOld_step T window mode index text old inbound p h
    · have hline : renderLine T window mode index text (some old) inbound p =
          renderNew T mode (window.isBelow index) text inbound p := by simp [renderLine, h]
      rw [hline]
      exact renderNew_step T window mode index text inbound p (by simpa using h)

section LineStep

variable {T : Tokenizer σ} {window : Window} {mode : RenderMode} {index : Nat} {text : Text}
  {inbound : σ} {p : Pass σ} {old? : Option (Line σ)} {next : Line σ × Pass σ}

private theorem LineStep.text_eq (h : LineStep T window mode index text inbound p old? next)
    (hold : ∀ old ∈ old?, old.text = text) : next.1.text = text := by
  cases h with
  | @kept old reuses settled => exact (old.reachedBy_text inbound).trans (hold old rfl)
  | @refreshed old reuses dirty needed =>
    obtain ⟨result, hread⟩ := Pass.read_rendered T text inbound (p.meet old inbound).countDirty
    rw [hread]
    rfl
  | left new notFull below => rfl
  | read new needed =>
    obtain ⟨result, hread⟩ := p.read_rendered T text inbound
    rw [hread]
    rfl

/-- A line that is needed is up to date. -/
theorem LineStep.clean (h : LineStep T window mode index text inbound p old? next)
    (hneed : mode = .full ∨ index ≤ window.last) : next.1.dirty = false := by
  cases h with
  | @kept old reuses settled =>
    by_contra hdirty
    have hbelow := settled (by simpa using hdirty)
    rcases hneed with rfl | hle
    · simp [RenderMode.reuses] at reuses
    · simp only [Window.isBelow, decide_eq_true_eq] at hbelow
      omega
  | @refreshed old reuses dirty needed =>
    obtain ⟨result, hread⟩ := Pass.read_rendered T text inbound (p.meet old inbound).countDirty
    rw [hread]
    rfl
  | left new notFull below =>
    rcases hneed with hfull | hle
    · exact absurd hfull notFull
    · simp only [Window.isBelow, decide_eq_true_eq] at below
      omega
  | read new needed =>
    obtain ⟨result, hread⟩ := p.read_rendered T text inbound
    rw [hread]
    rfl

end LineStep

/-- Each line of a pass comes from a step out of the state that the line above it hands over, and
what every step keeps of the pass holds there. -/
theorem renderLines_at {T : Tokenizer σ} {window : Window} {mode : RenderMode}
    {I : Pass σ → Prop}
    (keeps : ∀ index text old? inbound p, I p →
      I (renderLine T window mode index text old? inbound p).2)
    (work : List (Text × Option (Line σ))) (index : Nat) (inbound : σ) (p : Pass σ) (hp : I p)
    (i : Nat) (l : Line σ)
    (hl : (renderLines T window mode index inbound p work).1[i]? = some l) :
    ∃ w q next, work[i]? = some w ∧ I q ∧
      LineStep T window mode (index + i) w.1
        (Line.handover inbound ((renderLines T window mode index inbound p work).1.take i)) q w.2
        (l, next) := by
  induction work generalizing index inbound p i with
  | nil => simp [renderLines] at hl
  | cons w work ih =>
    cases i with
    | zero =>
      obtain rfl : (renderLine T window mode index w.1 w.2 inbound p).1 = l := by
        simpa [renderLines] using hl
      exact ⟨w, p, _, rfl, hp, renderLine_step T window mode index w.1 w.2 inbound p⟩
    | succ i =>
      obtain ⟨v, q, next, hv, hq, hstep⟩ := ih (index + 1) _ _
        (keeps index w.1 w.2 inbound p hp) i (by simpa [renderLines] using hl)
      rw [Nat.add_right_comm] at hstep
      refine ⟨v, q, next, hv, hq, ?_⟩
      rw [renderLines, List.take_succ_cons, Line.handover_cons]
      exact hstep

/-- What holds of every line alone, whatever index and state reach it, holds of a whole pass, and so
does what every line keeps of the pass. -/
theorem renderLines_forall₂ {T : Tokenizer σ} {window : Window} {mode : RenderMode}
    {I : Pass σ → Prop} {R : Text × Option (Line σ) → Line σ → Prop}
    (work : List (Text × Option (Line σ)))
    (step : ∀ w ∈ work, ∀ index inbound p, I p →
      I (renderLine T window mode index w.1 w.2 inbound p).2 ∧
        R w (renderLine T window mode index w.1 w.2 inbound p).1)
    (index : Nat) (inbound : σ) (p : Pass σ) (hp : I p) :
    I (renderLines T window mode index inbound p work).2 ∧
      List.Forall₂ R work (renderLines T window mode index inbound p work).1 := by
  induction work generalizing index inbound p with
  | nil => exact ⟨hp, .nil⟩
  | cons w work ih =>
    have hw := step w List.mem_cons_self index inbound p hp
    have hrest := ih (fun v hv => step v (List.mem_cons_of_mem w hv)) (index + 1)
      (renderLine T window mode index w.1 w.2 inbound p).1.outbound
      (renderLine T window mode index w.1 w.2 inbound p).2 hw.1
    exact ⟨hrest.1, .cons hw.2 hrest.2⟩

end

theorem exists_of_mem_right {α β : Type} {R : α → β → Prop} {xs : List α} {ys : List β}
    (h : List.Forall₂ R xs ys) : ∀ y ∈ ys, ∃ x ∈ xs, R x y := by
  induction h with
  | nil => simp
  | @cons x y xs ys hxy _ ih =>
    intro z hz
    rcases List.mem_cons.mp hz with rfl | hz
    · exact ⟨x, List.mem_cons_self, hxy⟩
    · obtain ⟨w, hw, hwz⟩ := ih z hz
      exact ⟨w, List.mem_cons_of_mem x hw, hwz⟩

private theorem forall_old_cons {ls : List (Line σ)} {text : Text} {old? : Option (Line σ)}
    (l : Line σ) (h : ∀ old ∈ old?, old ∈ ls ∧ old.text = text) :
    ∀ old ∈ old?, old ∈ l :: ls ∧ old.text = text := by
  intro old hold
  obtain ⟨hmem, htext⟩ := h old hold
  exact ⟨List.mem_cons_of_mem l hmem, htext⟩

/-- The diff hands each text an old line with that text, or none. -/
theorem align_forall₂ {es : List Diff.Entry} {ls : List (Line σ)} {texts : List Text}
    (h : Diff.Replay es (ls.map Line.text) texts) :
    List.Forall₂ (fun text old? => ∀ old ∈ old?, old ∈ ls ∧ old.text = text) texts
      (align es ls) := by
  generalize hps : ls.map Line.text = ps at h
  induction h generalizing ls with
  | done =>
    rw [List.map_eq_nil_iff.mp hps]
    exact .nil
  | same x _ ih =>
    obtain ⟨l, ls, rfl, rfl, htail⟩ := List.map_eq_cons_iff.mp hps
    have hrest := (ih htail).imp fun _ _ => forall_old_cons l
    rw [align]
    exact .cons (by simp) hrest
  | modified _ _ _ _ ih =>
    obtain ⟨l, ls, rfl, rfl, htail⟩ := List.map_eq_cons_iff.mp hps
    have hrest := (ih htail).imp fun _ _ => forall_old_cons l
    rw [align]
    exact .cons (by simp) hrest
  | added c _ ih =>
    rw [align]
    exact .cons (by simp) (ih hps)
  | removed p _ ih =>
    obtain ⟨l, ls, rfl, rfl, htail⟩ := List.map_eq_cons_iff.mp hps
    rw [align]
    exact (ih htail).imp fun _ _ => forall_old_cons l

/-- What a pass has to do: each text with the old line that may serve for it. -/
def work (r : Renderer σ) (texts : List Text) : List (Text × Option (Line σ)) :=
  texts.zip (align (Diff.between (r.lines.map Line.text) texts) r.lines)

theorem work_texts (r : Renderer σ) (texts : List Text) : (r.work texts).map Prod.fst = texts := by
  have h := align_forall₂ (Diff.between_replay (r.lines.map Line.text) texts)
  rw [work, List.map_fst_zip]
  exact Nat.le_of_eq h.length_eq

theorem old_of_mem_work {r : Renderer σ} {texts : List Text} {w : Text × Option (Line σ)}
    (hw : w ∈ r.work texts) : ∀ old ∈ w.2, old ∈ r.lines ∧ old.text = w.1 := by
  have h := align_forall₂ (Diff.between_replay (r.lines.map Line.text) texts)
  exact List.forall₂_iff_zip.mp h |>.2 hw

section

variable [DecidableEq σ] [Fingerprint σ]

def pass (r : Renderer σ) (texts : List Text) (window : Window) (mode : RenderMode) :
    List (Line σ) × Pass σ :=
  renderLines r.tokenizer window mode 0 r.tokenizer.initial
    { cache := r.cache, lastId := r.lastId } (r.work texts)

theorem pass_at (r : Renderer σ) {texts : List Text} {window : Window} {mode : RenderMode}
    {I : Pass σ → Prop}
    (keeps : ∀ index text old? inbound p, I p →
      I (renderLine r.tokenizer window mode index text old? inbound p).2)
    (start : I { cache := r.cache, lastId := r.lastId }) {i : Nat} {l : Line σ}
    (hl : (r.pass texts window mode).1[i]? = some l) :
    ∃ w q next, (r.work texts)[i]? = some w ∧ I q ∧
      LineStep r.tokenizer window mode i w.1
        (Line.handover r.tokenizer.initial ((r.pass texts window mode).1.take i)) q w.2
        (l, next) := by
  have hstep := renderLines_at keeps (r.work texts) 0 r.tokenizer.initial _ start i l hl
  rwa [Nat.zero_add] at hstep

theorem render_texts (r : Renderer σ) (texts : List Text) (window : Window) (mode : RenderMode) :
    (r.render texts window mode).2.lines.map Line.text = texts := by
  have hpass : List.Forall₂ (fun w l => l.text = w.1) (r.work texts)
      (r.pass texts window mode).1 := by
    refine (renderLines_forall₂ (I := fun _ => True) (r.work texts) ?_ 0 _ _ trivial).2
    intro w hw index inbound p _
    have hstep := renderLine_step r.tokenizer window mode index w.1 w.2 inbound p
    exact ⟨trivial, hstep.text_eq fun old hold => (old_of_mem_work hw old hold).2⟩
  have htexts : (r.work texts).map Prod.fst = (r.pass texts window mode).1.map Line.text := by
    rw [← List.forall₂_eq_eq_eq, List.forall₂_map_left_iff, List.forall₂_map_right_iff]
    exact hpass.imp fun w l hl => hl.symm
  rw [work_texts] at htexts
  exact htexts.symm

/-- After a pass the needed lines are up to date. -/
theorem render_clean (r : Renderer σ) (texts : List Text) (window : Window) (mode : RenderMode)
    (i : Nat) (l : Line σ) (hl : (r.render texts window mode).2.lines[i]? = some l)
    (hneed : mode = .full ∨ i ≤ window.last) : l.dirty = false := by
  obtain ⟨w, q, next, -, -, hstep⟩ :=
    r.pass_at (I := fun _ => True) (fun _ _ _ _ _ h => h) trivial hl
  exact hstep.clean hneed

end

end Renderer
end Highlight
