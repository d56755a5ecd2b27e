import Highlight.PlainText
import Highlight.Proofs.Session.Idle
import Mathlib.Order.Bounds.Basic
import Mathlib.Order.MinMax
/-! # Render requests

Requests that wait together come to the strongest of them, in whatever order they were made. A flush
runs the one pass that waits and leaves nothing behind.
-/
namespace Highlight

namespace RenderMode

private theorem strength_injective : Function.Injective strength := by
  intro m n h
  cases m <;> cases n <;> simp_all [strength]

/-- The weaker mode first. -/
instance : LinearOrder RenderMode := .lift' strength strength_injective

private theorem merge_eq_max (m n : RenderMode) : m.merge n = max m n := by
  rcases lt_or_ge m n with h | h
  · rw [max_eq_right h.le, merge, if_pos]
    exact h
  · rw [max_eq_left h, merge, if_neg]
    exact h.not_gt

private theorem isGreatest_foldl_merge (mode : RenderMode) (modes : List RenderMode) :
    IsGreatest {m | m ∈ mode :: modes} (modes.foldl merge mode) := by
  induction modes generalizing mode with
  | nil => simp
  | cons next modes ih =>
    have hrest := ih (mode.merge next)
    rw [List.foldl_cons]
    generalize modes.foldl merge (mode.merge next) = strongest at hrest
    rw [merge_eq_max] at hrest
    obtain ⟨hmem, hbound⟩ := hrest
    have hboth : max mode next ≤ strongest := hbound (List.mem_cons_self ..)
    constructor
    · rcases List.mem_cons.mp hmem with heq | hmem
      · rcases max_choice mode next with h | h <;> simp [heq, h]
      · simp [hmem]
    · intro m hm
      rcases List.mem_cons.mp hm with rfl | hm
      · exact (le_max_left _ _).trans hboth
      rcases List.mem_cons.mp hm with rfl | hm
      · exact (le_max_right _ _).trans hboth
      · exact hbound (List.mem_cons_of_mem _ hm)

end RenderMode

namespace Session

variable {σ : Type}

private theorem isGreatest_strongest (waiting? : Option RenderMode) (mode : RenderMode)
    (modes : List RenderMode) :
    IsGreatest {m | m ∈ waiting?.toList ++ mode :: modes}
      (modes.foldl RenderMode.merge (strongest waiting? mode)) := by
  cases waiting? with
  | none => exact RenderMode.isGreatest_foldl_merge mode modes
  | some waiting => exact RenderMode.isGreatest_foldl_merge waiting (mode :: modes)

/-- The session with another request waiting, or with none. -/
def withPending (s : Session σ) (pending : Option RenderMode) : Session σ :=
  { s with editor := { s.editor with pending } }

variable [DecidableEq σ] [Fingerprint σ]

private theorem handle_requestRender (s : Session σ) (mode : RenderMode) :
    s.handle (.requestRender mode) =
      (.noted, s.withPending (some (strongest s.editor.pending mode))) := by
  rw [handle, Editor.request, withPending]
  cases s.editor.pending <;> rfl

/-- The requests for passes in some modes, one after the other. -/
def requests (modes : List RenderMode) : List Move :=
  modes.map fun mode => .event (.requestRender mode)

private theorem run_requests_waiting (s : Session σ) (waiting : RenderMode)
    (modes : List RenderMode) :
    (s.withPending (some waiting)).run (requests modes) =
      s.withPending (some (modes.foldl RenderMode.merge waiting)) := by
  induction modes generalizing waiting with
  | nil => rfl
  | cons mode modes ih => exact ih (waiting.merge mode)

private theorem run_requests_cons (s : Session σ) (mode : RenderMode) (modes : List RenderMode) :
    s.run (requests (mode :: modes)) = s.withPending
      (some (modes.foldl RenderMode.merge (strongest s.editor.pending mode))) := by
  have hfirst : s.move (.event (.requestRender mode)) = _ :=
    congrArg Prod.snd (s.handle_requestRender mode)
  rw [requests, List.map_cons, run, List.foldl_cons, hfirst]
  exact s.run_requests_waiting _ modes

/-- Requests do nothing but wait, as the strongest of them and of the one that waited before. -/
theorem run_requests {s : Session σ} {modes : List RenderMode} {mode : RenderMode}
    (hmodes : modes ≠ []) (h : IsGreatest {m | m ∈ s.editor.pending.toList ++ modes} mode) :
    s.run (requests modes) = s.withPending (some mode) := by
  obtain ⟨first, rest, rfl⟩ := List.exists_cons_of_ne_nil hmodes
  rw [run_requests_cons, (isGreatest_strongest s.editor.pending first rest).unique h]

/-- The loop of a flush: while a request waits, it is taken and its pass is run. -/
inductive Flushes : Session σ → List RenderMode → Session σ → Prop
  | done {s : Session σ} (idle : s.editor.pending = none) : Flushes s [] s
  | pass {s next t : Session σ} {mode : RenderMode} {modes : List RenderMode}
      (waits : s.editor.pending = some mode) (passed : Passed mode (s.withPending none) next)
      (rest : Flushes next modes t) : Flushes s (mode :: modes) t

/-- A pass leaves no request, so the loop ends behind the first one. -/
theorem flushes_iff {s t : Session σ} {ran : List RenderMode} :
    Flushes s ran t ↔ ran = s.editor.pending.toList ∧ t = s.settle := by
  rw [settle]
  constructor
  · intro h
    cases h with
    | done idle => simp [idle]
    | pass waits passed rest =>
      obtain rfl := passed_iff.mp passed
      rw [waits]
      cases rest with
      | done idle => exact ⟨rfl, rfl⟩
      | pass waits' passed' rest' => contradiction
  · rintro ⟨rfl, rfl⟩
    cases hpending : s.editor.pending with
    | none => exact .done hpending
    | some mode => exact .pass hpending (passed_render _ mode) (.done rfl)

private theorem handle_flush_live {s : Session σ} (hlive : s.editor.tornDown = false) :
    s.handle .flush = (.done, s.settle) := by
  rw [handle_flush, if_neg]
  simp [hlive]

/-- Render requests to a live editor and a flush behind them come to one request for the strongest
of their modes and of the one that waited before. The requests change nothing but the mode that
waits, and the flush runs a single pass, in that mode, which the renderer goes through and the
surface is told of. One request for that mode has the same outcome, and so have the requests in any
other order. No request waits behind the flush, and another one changes nothing. -/
theorem requests_coalesce {s : Session σ} (hlive : s.editor.tornDown = false)
    {modes : List RenderMode} (hmodes : modes ≠ []) :
    ∃ mode, IsGreatest {m | m ∈ s.editor.pending.toList ++ modes} mode ∧
      let asked := s.run (requests modes)
      let flushed := asked.handle .flush
      asked = s.withPending (some mode) ∧
      (∀ ran t, Flushes asked ran t ↔ ran = [mode] ∧ t = flushed.2) ∧
      flushed = (.done, (s.withPending none).render mode) ∧
      Passed mode (s.withPending none) flushed.2 ∧
      flushed = (s.run (requests [mode])).handle .flush ∧
      (∀ others, others.Perm modes → flushed = (s.run (requests others)).handle .flush) ∧
      flushed.2.editor.pending = none ∧
      flushed.2.handle .flush = (.done, flushed.2) := by
  obtain ⟨mode, hmode⟩ : ∃ mode, IsGreatest {m | m ∈ s.editor.pending.toList ++ modes} mode := by
    obtain ⟨first, rest, rfl⟩ := List.exists_cons_of_ne_nil hmodes
    exact ⟨_, isGreatest_strongest s.editor.pending first rest⟩
  refine ⟨mode, hmode, ?_⟩
  intro asked flushed
  have hasked : asked = s.withPending (some mode) := run_requests hmodes hmode
  have hflushed : flushed = (.done, (s.withPending none).render mode) := by
    change asked.handle .flush = _
    rw [hasked]
    exact handle_flush_live hlive
  refine ⟨hasked, ?_, hflushed, ?_, ?_, ?_, ?_, ?_⟩
  · intro ran t
    rw [flushes_iff, hasked, hflushed]
    rfl
  · rw [hflushed]
    exact passed_render _ mode
  · -- The mode is also the strongest of itself and the one that waited.
    have hsingle : IsGreatest {m | m ∈ s.editor.pending.toList ++ [mode]} mode := by
      refine ⟨by simp, fun m hm => ?_⟩
      rcases List.mem_append.mp hm with hm | hm
      · exact hmode.2 (List.mem_append_left _ hm)
      · exact (List.mem_singleton.mp hm).le
    rw [run_requests (List.cons_ne_nil _ _) hsingle, ← hasked]
  · intro others hperm
    have hothers : others ≠ [] := fun hnil => hmodes (List.nil_perm.mp (hnil ▸ hperm))
    have hgreatest : IsGreatest {m | m ∈ s.editor.pending.toList ++ others} mode := by
      simpa [hperm.mem_iff] using hmode
    rw [run_requests hothers hgreatest, ← hasked]
  · rw [hflushed]
    rfl
  · rw [hflushed]
    exact handle_flush_live hlive

section

-- Sessions behind fixed requests are compared as written here, and evaluated only by decision.
attribute [local irreducible] handle run

/-- Two weaker requests, one of them waiting before, on either side of the strongest. The pass reads
the line and inserts it on the surface. -/
theorem requests_coalesce_full :
    let s : Session Unit :=
      { editor :=
          { settings := {}
            document := .ofText ['a']
            renderer := .ofTokenizer PlainText.language.tokenizer Cache.defaultCapacity
            idle := { delay := 500000 }
            pending := some .forceVisible }
        surface := { text := ['a'] } }
    let modes := [RenderMode.partly, .full, .forceVisibleAndDirty]
    let flushed := (s.run (requests modes)).handle .flush
    let line := Line.rendered 1 ['a'] () ⟨[⟨.text, ['a']⟩], ()⟩
    s.editor.tornDown = false ∧ modes ≠ [] ∧
      (∀ ran t, Flushes (s.run (requests modes)) ran t ↔ ran = [.full] ∧ t = flushed.2) ∧
      Passed .full (s.withPending none) flushed.2 ∧
      flushed = (s.run (requests [.full])).handle .flush ∧
      flushed = (s.run (requests [.full, .forceVisibleAndDirty, .partly])).handle .flush ∧
      flushed.2.handle .flush = (.done, flushed.2) ∧
      flushed.2.editor.renderer.lines = [line] ∧
      flushed.2.editor.lastRender = some { tokenized := 1 } ∧
      flushed.2.surface.received = [[⟨0, .insert line⟩]] ∧
      flushed.2.surface.rendered = [line] := by
  intro s modes flushed line
  have hlive : s.editor.tornDown = false := rfl
  have hmodes : modes ≠ [] := List.cons_ne_nil _ _
  obtain ⟨mode, hmode, -, hran, -, hpassed, hsingle, hperm, -, hagain⟩ :=
    requests_coalesce hlive hmodes
  have hfull : mode = .full := by
    have hle : RenderMode.full ≤ mode := hmode.2 (by decide)
    exact le_antisymm (by cases mode <;> decide) hle
  subst hfull
  exact ⟨hlive, hmodes, hran, hpassed, hsingle, hperm _ (by decide), hagain, by decide +kernel,
    by decide +kernel, by decide +kernel, by decide +kernel⟩

end

end Session
end Highlight
