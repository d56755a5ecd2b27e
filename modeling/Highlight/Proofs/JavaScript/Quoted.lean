import Highlight.Proofs.JavaScript.Strings
import Highlight.Proofs.Language.LastMatch
import Highlight.Proofs.Lexeme.Quoted
/-! # Reading strings in quotes

A string in single or double quotes is read by the rules of strings in quotes: the marks of
templates are no marks in it.
-/
namespace Highlight.JavaScript

open Lexeme

/-- The characters that strings take in runs. -/
def isStringChar (c : Char) : Bool :=
  !(isQuote c || c == Text.backquote || c == Text.backslash || c == '$')

private theorem isPlain_of_isStringChar {c : Char} (h : isStringChar c = true) :
    isPlain c = true := by
  simp only [isStringChar, Bool.not_eq_true', Bool.or_eq_false_iff] at h
  obtain ⟨⟨⟨hquote, -⟩, hbackslash⟩, -⟩ := h
  simp [isPlain, hquote, hbackslash]

def State.quoted (st : State) (q : Char) : State := { st with current := ⟨some q, false, false⟩ }

variable {st : State} {q : Char}

private theorem scan_quoted (hcomment : st.inBlockComment = false) (s : Scanner) :
    scan s (st.quoted q) = scanString q s (st.quoted q) := by
  simp [scan, State.quoted, State.openString?, hcomment]

private theorem openPlaceholder?_quoted (s : Scanner) :
    openPlaceholder? s (st.quoted q) = none := rfl

private theorem readsString (hcode : st.current = {}) (hcomment : st.inBlockComment = false)
    (hline : st.newlineEscape = false) (hq : isQuote q = true) :
    language.ReadsString .string isStringChar q (st.quoted q) st
      { st.quoted q with newlineEscape := true } := by
  have hline : (st.quoted q).newlineEscape = false := hline
  refine ⟨hq, fun _ => isPlain_of_isStringChar, by decide, ?_, ?_, ?_⟩
  · intro s t endsLine hescape
    change scan _ _ = _
    rw [scan_quoted hcomment, scanString, hescape]
    cases endsLine with
    | true => simp
    | false => simp [← hline]
  · intro s t hescape hclose
    change scan _ _ = _
    have hstate : { st.quoted q with current := {} } = st := by
      rw [State.quoted, ← hcode]
    rw [scan_quoted hcomment, scanString, hescape, openPlaceholder?_quoted, closeString?, hclose]
    exact congrArg _ hstate
  · intro s hescape hclose
    change scan _ _ = _
    rw [scan_quoted hcomment, scanString, hescape, openPlaceholder?_quoted, closeString?, hclose]
    rfl

/-- Between two lines, the next line reads a string in quotes on that is open. -/
theorem State.BetweenLines.readsQuoted (h : st.BetweenLines) (hopen : st.openString? = some q)
    (hq : isQuote q = true) :
    language.ReadsQuoted .string State.openString? q st
      { st with current := { st.current with opener := none } } := by
  rw [h.openString?_eq] at hopen
  have hcurrent := h.current.eq_quoted hopen hq
  have hcomment : st.inBlockComment = false := by
    cases hst : st.inBlockComment with
    | false => rfl
    | true =>
      rw [h.comment hst] at hopen
      contradiction
  let outside : State := { st with current := {}, newlineEscape := false }
  have hinside : language.beginLine st = outside.quoted q := by
    change { st with newlineEscape := false } = _
    rw [State.quoted, ← hcurrent]
  have hclosed : language.beginLine { st with current := { st.current with opener := none } } =
      outside := by
    rw [hcurrent]
    rfl
  have hlast : ∀ r, language.lex [q] r outside = language.lex [] r outside :=
    fun r => lex_last (isQuote_ne_point hq) (by decide) r outside
  have hreads : language.ReadsString .string isStringChar q (outside.quoted q) outside
      { outside.quoted q with newlineEscape := true } := readsString rfl hcomment rfl hq
  exact hreads.readsQuoted hinside hclosed hlast rfl rfl

end Highlight.JavaScript
