import Highlight.Display
import Highlight.Session
/-! # Runs of a session

An editor and its surface in any order of events and of changes that the user makes on the surface.
An event runs a render pass or leaves alone what is rendered.
-/
namespace Highlight

variable {σ : Type}

namespace Surface

@[simp] theorem change_rendered (s : Surface σ) (change : Change) :
    (s.change change).rendered = s.rendered := by
  cases change <;> rfl

end Surface

namespace Patch

variable {α : Type}

private theorem applyAll_of_isKeep (form : Line σ → α) (shown : List α) {script : List (Patch σ)}
    (h : script.all isKeep = true) : applyAll form shown script = shown := by
  induction script with
  | nil => rfl
  | cons p script ih =>
    rw [List.all_cons, Bool.and_eq_true] at h
    have hkeep : apply form shown p = shown := by
      have hp := h.1
      unfold isKeep at hp
      unfold apply
      split at hp
      · rename_i haction
        rw [haction]
      · contradiction
    rw [applyAll, List.foldl_cons, hkeep]
    exact ih h.2

end Patch

namespace Session

inductive Move where
  | change (change : Surface.Change)
  | event (event : Event)

variable [DecidableEq σ] [Fingerprint σ]

def move (s : Session σ) : Move → Session σ
  | .change change => { s with surface := s.surface.change change }
  | .event event => (s.handle event).2

def run (s : Session σ) (moves : List Move) : Session σ := moves.foldl move s

def display (s : Session σ) : Display σ :=
  { renderer := s.editor.renderer, shown := s.surface.rendered }

/-- A script that the surface is not told of would have changed nothing. -/
theorem display_render (s : Session σ) (mode : RenderMode) :
    (s.render mode).display =
      (s.display.handle (.render s.editor.document.lines s.window mode)).2 := by
  let pass := s.editor.renderer.render s.editor.document.lines s.window mode
  have hshown : (if pass.1.isNoop then s.surface else s.surface.receive pass.1.script).rendered =
      Patch.applyAll id s.surface.rendered pass.1.script := by
    split
    · rename_i hnoop
      exact (Patch.applyAll_of_isKeep id s.surface.rendered hnoop).symm
    · rfl
  exact congrArg (Display.mk pass.2) hshown

/-- What the renderer makes of the document's lines in a pass. -/
def outcome (s : Session σ) (mode : RenderMode) : Renderer.Outcome σ × Renderer σ :=
  s.editor.renderer.render s.editor.document.lines s.window mode

/-- A render pass leads from the one session to the other: the editor has the renderer behind it and
its counts, and the surface its script, which it hears of if something changed. Nothing else of
either is another. -/
structure Passed (mode : RenderMode) (s t : Session σ) : Prop where
  editor : t.editor = { s.editor with
    renderer := (s.outcome mode).2
    lastRender := some (s.outcome mode).1.stats }
  surface : t.surface = { s.surface with
    rendered := Patch.applyAll id s.surface.rendered (s.outcome mode).1.script
    received := if (s.outcome mode).1.isNoop then s.surface.received
      else (s.outcome mode).1.script :: s.surface.received }

theorem passed_render (s : Session σ) (mode : RenderMode) : Passed mode s (s.render mode) := by
  refine ⟨rfl, ?_⟩
  change (if (s.outcome mode).1.isNoop then s.surface
    else s.surface.receive (s.outcome mode).1.script) = _
  split
  · rename_i hnoop
    rw [Patch.applyAll_of_isKeep id s.surface.rendered hnoop]
  · rfl

theorem passed_iff {mode : RenderMode} {s t : Session σ} :
    Passed mode s t ↔ t = s.render mode := by
  constructor
  · intro h
    have hrender := s.passed_render mode
    obtain ⟨editor, surface⟩ := t
    obtain rfl : editor = _ := h.editor.trans hrender.editor.symm
    obtain rfl : surface = _ := h.surface.trans hrender.surface.symm
    rfl
  · rintro rfl
    exact s.passed_render mode

/-- The event makes the editor run a render pass. -/
def passes (s : Session σ) : Event → Bool
  | .attach | .setCode _ | .textChanged _ | .scrolled _ => !s.editor.tornDown
  | .pollIdle now => !s.editor.tornDown && s.editor.idle.isDue now
  | .flush => !s.editor.tornDown && s.editor.pending.isSome
  | .requestRender _ | .setSelection _ | .teardown => false

/-- The session takes a text over. -/
def load (s : Session σ) (code : Text) : Session σ :=
  { editor := { s.editor with document := .ofText code }
    surface := { s.surface with text := code } }

def touch (s : Session σ) (now : Nat) : Session σ := { s with editor := s.editor.touch now }

/-- Editor and surface have the selection. -/
def select (s : Session σ) (selection : Selection) : Session σ :=
  { editor := { s.editor with selection }, surface := { s.surface with selection } }

omit [DecidableEq σ] [Fingerprint σ] in
private theorem answer_whenLive (s : Session σ) (act : Session σ → Session σ) :
    s.answer (s.whenLive fun s => .ok (act s)) =
      if s.editor.tornDown then (.refused .tornDown, s) else (.done, act s) := by
  unfold whenLive
  split <;> rfl

theorem handle_attach (s : Session σ) :
    s.handle .attach =
      if s.editor.tornDown then (.refused .tornDown, s) else (.done, s.sync.refresh .partly) :=
  s.answer_whenLive _

theorem handle_setCode (s : Session σ) (code : Text) :
    s.handle (.setCode code) =
      if s.editor.tornDown then (.refused .tornDown, s)
      else (.done, (s.load code).takeSelection.refresh .partly) :=
  s.answer_whenLive fun s => (s.load code).takeSelection.refresh .partly

theorem handle_textChanged (s : Session σ) (now : Nat) :
    s.handle (.textChanged now) =
      if s.editor.tornDown then (.refused .tornDown, s) else (.done, s.followEdit.touch now) :=
  s.answer_whenLive fun s => s.followEdit.touch now

theorem handle_scrolled (s : Session σ) (now : Nat) :
    s.handle (.scrolled now) =
      if s.editor.tornDown then (.refused .tornDown, s)
      else (.done, (s.refresh .partly).touch now) :=
  s.answer_whenLive fun s => (s.refresh .partly).touch now

theorem handle_flush (s : Session σ) :
    s.handle .flush =
      if s.editor.tornDown then (.refused .tornDown, s) else (.done, s.settle) :=
  s.answer_whenLive settle

theorem handle_pollIdle (s : Session σ) (now : Nat) :
    s.handle (.pollIdle now) =
      if s.editor.tornDown then (.refused .tornDown, s)
      else if s.editor.idle.isDue now then
        (.polled true, Session.refresh { s with editor := { s.editor with
          idle := { s.editor.idle with lastActivity := none } } } .forceVisibleAndDirty)
      else (.polled false, s) := by
  rw [handle, pollIdle, whenLive]
  by_cases hdead : s.editor.tornDown = true
  · simp only [if_pos hdead]
  · by_cases hdue : s.editor.idle.isDue now = true
    · simp only [if_neg hdead, if_pos hdue, IdleTimer.poll]
      rfl
    · simp only [if_neg hdead, if_neg hdue, IdleTimer.poll]
      rfl

theorem handle_setSelection (s : Session σ) (asked : Selection) :
    s.handle (.setSelection asked) =
      if s.editor.tornDown then (.refused .tornDown, s)
      else if s.editor.document.length < asked.start ∨ s.editor.document.length < asked.stop then
        (.refused (.invalidSelection asked.start asked.stop s.editor.document.length), s)
      else (.done, s.select (.between asked.start asked.stop)) := by
  rw [handle, setSelection, whenLive]
  split
  · rfl
  · dsimp only
    split <;> rfl

/-- Nothing of what is rendered is touched. -/
structure Rests (s t : Session σ) : Prop where
  settings : t.editor.settings = s.editor.settings
  document : t.editor.document = s.editor.document
  renderer : t.editor.renderer = s.editor.renderer
  lastRender : t.editor.lastRender = s.editor.lastRender
  rendered : t.surface.rendered = s.surface.rendered

omit [DecidableEq σ] [Fingerprint σ] in
private theorem Rests.refl (s : Session σ) : Rests s s := ⟨rfl, rfl, rfl, rfl, rfl⟩

omit [DecidableEq σ] [Fingerprint σ] in
private theorem rests_refused {s t : Session σ} (hdead : s.editor.tornDown = true) :
    Rests s (if s.editor.tornDown then (Reply.refused .tornDown, s) else (.done, t)).2 := by
  rw [if_pos hdead]
  exact .refl s

/-- What is rendered changes in render passes only. -/
theorem handle_rests {s : Session σ} {event : Event} (h : s.passes event = false) :
    Rests s (s.handle event).2 := by
  cases event with
  | attach =>
    have hdead : s.editor.tornDown = true := by simpa [passes] using h
    rw [handle_attach]
    exact rests_refused hdead
  | setCode code =>
    have hdead : s.editor.tornDown = true := by simpa [passes] using h
    rw [handle_setCode]
    exact rests_refused hdead
  | textChanged now =>
    have hdead : s.editor.tornDown = true := by simpa [passes] using h
    rw [handle_textChanged]
    exact rests_refused hdead
  | scrolled now =>
    have hdead : s.editor.tornDown = true := by simpa [passes] using h
    rw [handle_scrolled]
    exact rests_refused hdead
  | pollIdle now =>
    rw [handle_pollIdle]
    split
    · exact .refl s
    · rename_i hlive
      have hearly : s.editor.idle.isDue now = false := by simpa [passes, hlive] using h
      simp only [hearly, Bool.false_eq_true, if_false]
      exact .refl s
  | flush =>
    rw [handle_flush]
    split
    · exact .refl s
    · rename_i hlive
      have hnone : s.editor.pending = none := by simpa [passes, hlive] using h
      rw [settle, hnone]
      exact .refl s
  | setSelection selection =>
    rw [handle_setSelection]
    split
    · exact .refl s
    · split
      · exact .refl s
      · exact ⟨rfl, rfl, rfl, rfl, rfl⟩
  | requestRender mode => exact ⟨rfl, rfl, rfl, rfl, rfl⟩
  | teardown => exact ⟨rfl, rfl, rfl, rfl, rfl⟩

end Session
end Highlight
