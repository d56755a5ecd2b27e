import Highlight.Session
/-! # Calls of an editor

An editor is called with an event and with the surface as it is at that moment. Nothing is assumed
of the surfaces: from one call to the next all of a surface may change, and it may be another one.
-/
namespace Highlight

variable {σ : Type}

structure Call (σ : Type) where
  surface : Surface σ
  event : Session.Event

namespace Editor

variable [DecidableEq σ] [Fingerprint σ]

def call (e : Editor σ) (c : Call σ) : Session.Reply × Session σ :=
  Session.handle ⟨e, c.surface⟩ c.event

/-- The editor after some calls. -/
def after (e : Editor σ) (calls : List (Call σ)) : Editor σ :=
  calls.foldl (fun e c => (e.call c).2.editor) e

/-- What an editor was told in some calls and what it replied. -/
def log (e : Editor σ) : List (Call σ) → List (Session.Event × Session.Reply)
  | [] => []
  | c :: calls => (c.event, (e.call c).1) :: (e.call c).2.editor.log calls

theorem after_invariant {P : Editor σ → Prop} {e : Editor σ} (start : P e)
    (step : ∀ e c, P e → P (e.call c).2.editor) (calls : List (Call σ)) : P (e.after calls) := by
  induction calls generalizing e with
  | nil => exact start
  | cons c calls ih => exact ih (step e c start)

end Editor
end Highlight
