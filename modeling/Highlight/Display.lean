import Highlight.Renderer
/-! # Displays that follow a renderer

A renderer together with a list of lines that follows it by its scripts alone.
-/
namespace Highlight

inductive Renderer.Request where
  | render (texts : List Text) (window : Window) (mode : RenderMode)
  | markDirtyFrom (index : Nat)
  | reset
  deriving DecidableEq, Repr

structure Display (σ : Type) where
  renderer : Renderer σ
  shown : List (Line σ) := []

namespace Display

variable {σ : Type} [DecidableEq σ] [Fingerprint σ]

/-- Carries out a request; a render pass has an outcome. -/
def handle (d : Display σ) : Renderer.Request → Option (Renderer.Outcome σ) × Display σ
  | .render texts window mode =>
    let pass := d.renderer.render texts window mode
    (some pass.1, { renderer := pass.2, shown := Patch.applyAll id d.shown pass.1.script })
  | .markDirtyFrom index => (none, { d with renderer := d.renderer.markDirtyFrom index })
  | .reset => (none, { renderer := d.renderer.reset, shown := [] })

def run (d : Display σ) (requests : List Renderer.Request) : Display σ :=
  requests.foldl (fun d request => (d.handle request).2) d

end Display
end Highlight
