import Highlight.Display
/-! # Runs of a renderer

The states that a new renderer reaches by any sequence of requests.
-/
namespace Highlight.Renderer

variable {σ : Type} [DecidableEq σ] [Fingerprint σ]

def perform (r : Renderer σ) : Request → Renderer σ
  | .render texts window mode => (r.render texts window mode).2
  | .markDirtyFrom index => r.markDirtyFrom index
  | .reset => r.reset

def run (r : Renderer σ) (requests : List Request) : Renderer σ := requests.foldl perform r

theorem run_invariant {P : Renderer σ → Prop} {r : Renderer σ} (start : P r)
    (step : ∀ r request, P r → P (r.perform request)) (requests : List Request) :
    P (r.run requests) := by
  induction requests generalizing r with
  | nil => exact start
  | cons request requests ih => exact ih (step r request start)

@[simp] theorem perform_tokenizer (r : Renderer σ) (request : Request) :
    (r.perform request).tokenizer = r.tokenizer := by
  cases request <;> rfl

@[simp] theorem run_tokenizer (r : Renderer σ) (requests : List Request) :
    (r.run requests).tokenizer = r.tokenizer :=
  run_invariant (P := fun s => s.tokenizer = r.tokenizer) rfl
    (fun s request h => (perform_tokenizer s request).trans h) requests

end Highlight.Renderer
