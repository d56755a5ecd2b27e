import Highlight.Proofs.Language.Loop
/-! # What a lexer keeps

A property of the state and of the rest of the line that every step keeps holds at the end of each
line, and one that every line keeps holds behind all lines of a document. Steps are choices between
alternatives, so what a step ensures is said of its alternatives one by one.
-/
namespace Highlight

variable {σ : Type}

/-- If the step goes through, the property holds of the rest of the line and the state behind it. -/
def Ensures (P : Text → σ → Prop) (step? : Option (Scanner × σ)) : Prop :=
  ∀ next ∈ step?, P next.1.rest next.2

namespace Ensures

variable {P : Text → σ → Prop} {first? second? : Option (Scanner × σ)}

theorem none (P : Text → σ → Prop) : Ensures P Option.none := by
  intro next hnext
  contradiction

theorem orElse (hfirst : Ensures P first?) (hsecond : Ensures P second?) :
    Ensures P (first? <|> second?) := by
  cases first? with
  | none => exact hsecond
  | some next => exact hfirst

theorem getD (hfirst : Ensures P first?) {default : Scanner × σ}
    (hdefault : P default.1.rest default.2) :
    P (first?.getD default).1.rest (first?.getD default).2 := by
  cases first? with
  | none => exact hdefault
  | some next => exact hfirst next rfl

theorem map {st : σ} (h : ∀ rest, P rest st) (scanner? : Option Scanner) :
    Ensures P (scanner?.map (·, st)) := by
  intro next hnext
  obtain ⟨s, -, rfl⟩ := Option.map_eq_some_iff.mp hnext
  exact h s.rest

end Ensures

namespace Language

variable {L : Language σ}

/-- What every step keeps, and what is kept where a character is skipped, holds behind the line. -/
theorem IsFaithful.lex_invariant (hL : L.IsFaithful) {P : Text → σ → Prop}
    (step : ∀ s st, s.rest ≠ [] → P s.rest st → P (L.scan s st).1.rest (L.scan s st).2)
    (skip : ∀ c cs st, P (c :: cs) st → P cs st) (last rest : Text) (st : σ) (h : P rest st) :
    P [] (L.lex last rest st).2 := by
  generalize hn : rest.length = n
  induction n using Nat.strongRecOn generalizing last rest st with
  | ind n ih =>
    cases rest with
    | nil => simpa [lex] using h
    | cons c cs =>
      have hne : (Scanner.resume last (c :: cs)).rest ≠ [] := by simp [Scanner.resume]
      have hnext := step (.resume last (c :: cs)) st hne h
      by_cases hshorter : (L.scan (.resume last (c :: cs)) st).1.rest.length < (c :: cs).length
      · rw [lex, dif_pos hshorter]
        exact ih _ (hn ▸ hshorter) _ _ _ hnext rfl
      · -- A step that takes nothing leaves the rest as it was, and the loop takes one character.
        have hrest : (L.scan (.resume last (c :: cs)) st).1.rest = c :: cs := by
          rcases covers_cases (hL.covers hne st) with ⟨-, hlt⟩ | ⟨-, hrest, -⟩
          · exact absurd hlt hshorter
          · exact hrest
        rw [hrest] at hnext
        rw [lex, dif_neg hshorter]
        exact ih cs.length (by simp [← hn]) _ _ _ (skip c cs _ hnext) rfl

end Language

/-- What every line keeps holds behind any lines. -/
theorem Tokenizer.behind_invariant {T : Tokenizer σ} {P : σ → Prop}
    (step : ∀ line st, P st → P (T.tokenize line st).outbound) {st : σ} (h : P st)
    (lines : List Text) : P (T.behind st lines) := by
  induction lines generalizing st with
  | nil => exact h
  | cons line lines ih => exact ih (step line st h)

end Highlight
