import Highlight.Proofs.Renderer.Step
/-! # Passes in lockstep

Two passes that start alike and do alike with every line end alike, with the same lines: the state
that reaches a line is the same in both, since so are the lines above it.
-/
namespace Highlight.Renderer

variable {σ : Type}

/-- Two passes have made the same line and are still alike. -/
def Together (R : Pass σ → Pass σ → Prop) (a b : Line σ × Pass σ) : Prop := a.1 = b.1 ∧ R a.2 b.2

variable [DecidableEq σ] [Fingerprint σ]

/-- Passes that are alike stay so, whatever both do with a line, and make the same lines. -/
structure Lockstep (T : Tokenizer σ) (R : Pass σ → Pass σ → Prop) : Prop where
  countReused : ∀ p q, R p q → R p.countReused q.countReused
  countStale : ∀ p q, R p q → R p.countStale q.countStale
  countDirty : ∀ p q, R p q → R p.countDirty q.countDirty
  leave : ∀ p q, R p q → ∀ text inbound, Together R (p.leave text inbound) (q.leave text inbound)
  read : ∀ p q, R p q → ∀ text inbound, Together R (p.read T text inbound) (q.read T text inbound)

namespace Lockstep

variable {T : Tokenizer σ} {R : Pass σ → Pass σ → Prop} {p q : Pass σ}

private theorem meet (hR : Lockstep T R) (h : R p q) (old : Line σ) (inbound : σ) :
    R (p.meet old inbound) (q.meet old inbound) := by
  unfold Pass.meet
  split
  · exact hR.countStale p q h
  · exact h

private theorem renderNew (hR : Lockstep T R) (h : R p q) (mode : RenderMode) (below : Bool)
    (text : Text) (inbound : σ) :
    Together R (Renderer.renderNew T mode below text inbound p)
      (Renderer.renderNew T mode below text inbound q) := by
  unfold Renderer.renderNew
  split
  · exact hR.leave p q h text inbound
  · exact hR.read p q h text inbound

private theorem renderOld (hR : Lockstep T R) (h : R p q) (below : Bool) (old : Line σ)
    (text : Text) (inbound : σ) :
    Together R (Renderer.renderOld T below old text inbound p)
      (Renderer.renderOld T below old text inbound q) := by
  have hmeet := hR.meet h old inbound
  change Together R
    (if (old.reachedBy inbound).dirty && !below then
      (p.meet old inbound).countDirty.read T text inbound
    else (old.reachedBy inbound, (p.meet old inbound).countReused))
    (if (old.reachedBy inbound).dirty && !below then
      (q.meet old inbound).countDirty.read T text inbound
    else (old.reachedBy inbound, (q.meet old inbound).countReused))
  split
  · exact hR.read _ _ (hR.countDirty _ _ hmeet) text inbound
  · exact ⟨rfl, hR.countReused _ _ hmeet⟩

theorem renderLine (hR : Lockstep T R) (h : R p q) (window : Window) (mode : RenderMode)
    (index : Nat) (text : Text) (old? : Option (Line σ)) (inbound : σ) :
    Together R (Renderer.renderLine T window mode index text old? inbound p)
      (Renderer.renderLine T window mode index text old? inbound q) := by
  unfold Renderer.renderLine
  cases old? with
  | none => exact hR.renderNew h mode _ text inbound
  | some old =>
    dsimp only
    split
    · exact hR.renderOld h _ old text inbound
    · exact hR.renderNew h mode _ text inbound

end Lockstep

/-- Modes that do alike with each line alone do alike in a whole pass. -/
theorem renderLines_together {T : Tokenizer σ} {window : Window} {mode mode' : RenderMode}
    {R : Pass σ → Pass σ → Prop} (work : List (Text × Option (Line σ)))
    (step : ∀ index text old? inbound p q, R p q →
      Together R (renderLine T window mode index text old? inbound p)
        (renderLine T window mode' index text old? inbound q))
    (index : Nat) (inbound : σ) (p q : Pass σ) (h : R p q) :
    (renderLines T window mode index inbound p work).1 =
        (renderLines T window mode' index inbound q work).1 ∧
      R (renderLines T window mode index inbound p work).2
        (renderLines T window mode' index inbound q work).2 := by
  induction work generalizing index inbound p q with
  | nil => exact ⟨rfl, h⟩
  | cons w work ih =>
    obtain ⟨hline, hpass⟩ := step index w.1 w.2 inbound p q h
    have hrest := ih (index + 1) (renderLine T window mode index w.1 w.2 inbound p).1.outbound _ _
      hpass
    simp only [renderLines]
    rw [hline] at hrest ⊢
    exact ⟨congrArg _ hrest.1, hrest.2⟩

end Highlight.Renderer
