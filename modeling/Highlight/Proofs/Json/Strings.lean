import Highlight.Proofs.Json.Between
import Highlight.Proofs.Json.Quoted
import Highlight.Proofs.Language.LastMatch
/-! # Open strings

A string that a line leaves open is in quotes, and no comment is open beside it. So the next line
reads it on by the rules of strings in quotes.
-/
namespace Highlight.Json

open Lexeme

variable {st : State} {q : Char}

theorem behind_coherent (lines : List Text) : (language.tokenizer.behind {} lines).Coherent :=
  (behind_betweenLines lines).toCoherent

/-- Between two lines, the next line reads a string on that is open. -/
theorem State.Coherent.readsQuoted (h : st.Coherent) (hopen : st.stringOpener = some q) :
    language.ReadsQuoted st.stringKind State.stringOpener q st
      { st with stringOpener := none } := by
  have hq : isQuote q = true := h.opener q hopen
  have hcomment : st.inBlockComment = false := by
    cases hst : st.inBlockComment with
    | false => rfl
    | true =>
      rw [h.comment hst] at hopen
      contradiction
  let outside : State := { st with stringOpener := none, newlineEscape := false }
  have hbetween : outside.BetweenElements := ⟨rfl, rfl, hcomment⟩
  have hinside : language.beginLine st = outside.within q := by
    change { st with newlineEscape := false } = _
    rw [State.within, ← hopen]
  exact (readsString hbetween hq).readsQuoted hinside rfl
    (fun r => lex_last (isQuote_ne_point hq) (by decide) r outside) rfl rfl

end Highlight.Json
