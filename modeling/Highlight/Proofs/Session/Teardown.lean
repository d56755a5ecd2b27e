import Highlight.Proofs.Session.Calls
import Highlight.Proofs.Session.Run
/-! # Editors that are torn down

An editor that is torn down refuses every event and stays as it was, with the idle timer off. It
notes requests as before, but no pass takes them up.
-/
namespace Highlight

variable {σ : Type}

/-- The event is refused once the editor is torn down. -/
def Session.Event.needsLive : Session.Event → Bool
  | .requestRender _ | .teardown => false
  | _ => true

namespace Editor

/-- The editor is the other one torn down, but for the request that waits. -/
def TornFrom (e t : Editor σ) : Prop := ∃ pending, t = { e.teardown with pending }

variable [DecidableEq σ] [Fingerprint σ]

private theorem TornFrom.call {e t : Editor σ} (h : e.TornFrom t) (c : Call σ) :
    (t.call c).1 = (if c.event.needsLive then .refused .tornDown else .noted) ∧
      (t.call c).2.surface = c.surface ∧ e.TornFrom (t.call c).2.editor := by
  obtain ⟨pending, rfl⟩ := h
  obtain ⟨surface, event⟩ := c
  cases event with
  | requestRender mode => exact ⟨rfl, rfl, _, rfl⟩
  | teardown => exact ⟨rfl, rfl, none, rfl⟩
  | _ => exact ⟨rfl, rfl, pending, rfl⟩

private theorem TornFrom.after {e t : Editor σ} (h : e.TornFrom t) (calls : List (Call σ)) :
    e.TornFrom (t.after calls) :=
  after_invariant h (fun _ c h => (h.call c).2.2) calls

omit [DecidableEq σ] [Fingerprint σ] in
private theorem TornFrom.passes {e t : Editor σ} (h : e.TornFrom t) (surface : Surface σ)
    (event : Session.Event) : Session.passes ⟨t, surface⟩ event = false := by
  obtain ⟨pending, rfl⟩ := h
  cases event <;> rfl

/-- After a teardown and any calls behind it, every event but requests and another teardown is
refused. No call touches its surface, none changes the code, the lines, the selection, the cache or
the statistics that the editor had when it was torn down, and no idle sweep is due. No pass runs,
whatever was asked for before or since. -/
theorem torn_down_for_good (e : Editor σ) (surface : Surface σ) (later : List (Call σ))
    (c : Call σ) :
    let torn := (e.call ⟨surface, .teardown⟩).2.editor
    let result := (torn.after later).call c
    let next := result.2.editor
    result.1 = (if c.event.needsLive then .refused .tornDown else .noted) ∧
      result.2.surface = c.surface ∧
      (next.code = e.code ∧ next.renderer = e.renderer ∧ next.selection = e.selection ∧
        next.lastRender = e.lastRender) ∧
      next.idle.deadline? = none ∧
      Session.passes ⟨torn.after later, c.surface⟩ c.event = false := by
  intro torn result next
  have htorn : e.TornFrom (torn.after later) :=
    TornFrom.after (t := torn) ⟨none, rfl⟩ later
  obtain ⟨hreply, hsurface, pending, hnext⟩ := htorn.call c
  have hnext : next = { e.teardown with pending } := hnext
  refine ⟨hreply, hsurface, ?_, ?_, htorn.passes c.surface c.event⟩
  · rw [hnext]
    exact ⟨rfl, rfl, rfl, rfl⟩
  · rw [hnext]
    rfl

end Editor
end Highlight
