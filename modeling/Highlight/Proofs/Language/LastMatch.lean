import Highlight.Proofs.Language.Advance
import Highlight.Proofs.Language.Html
import Highlight.Proofs.Language.Json
/-! # What the last match is for

A step may ask what was matched before it. All that JavaScript and JSON ask is whether that was a
point, so any two other last matches are as good as each other. CSS and HTML never ask.
-/
namespace Highlight

variable {last last' rest : Text}

private theorem Scanner.accept_resume {p : Pattern} (hp : p.Total) (hrest : rest ≠ [])
    (last last' : Text) : (resume last rest).accept p = (resume last' rest).accept p := by
  obtain ⟨n, hn⟩ := hp rest hrest
  rw [accept_of_some (s := resume last rest) hn, accept_of_some (s := resume last' rest) hn]
  rfl

private theorem Lexeme.scanComment_resume (close : Text) (hrest : rest ≠ []) (last last' : Text) :
    scanComment close (.resume last rest) = scanComment close (.resume last' rest) := by
  have hclose : (Scanner.resume last rest).tokenText? .comment close =
      (Scanner.resume last' rest).tokenText? .comment close := rfl
  rw [scanComment, scanComment, hclose,
    Scanner.accept_resume (commentBody_total close) hrest last last']

/-- Two steps behind different last matches do the same, or they both take nothing. -/
def SameStep {σ : Type} (last last' rest : Text) (step step' : Scanner × σ) : Prop :=
  step = step' ∨ ∃ st, step = (.resume last rest, st) ∧ step' = (.resume last' rest, st)

private theorem getD_sameStep {σ : Type} (read? : Option (Scanner × σ)) (last last' rest : Text)
    (st : σ) :
    SameStep last last' rest (read?.getD (.resume last rest, st))
      (read?.getD (.resume last' rest, st)) := by
  cases read? with
  | none => exact .inr ⟨st, rfl, rfl⟩
  | some next => exact .inl rfl

/-- If a step does the same behind two last matches, or takes nothing behind either, what is read is
the same. -/
theorem Language.lex_congr {σ : Type} {L : Language σ} {st : σ}
    (h : rest ≠ [] → SameStep last last' rest (L.scan (.resume last rest) st)
      (L.scan (.resume last' rest) st)) : L.lex last rest st = L.lex last' rest st := by
  cases rest with
  | nil => rw [lex, lex]
  | cons c cs =>
    rcases h (by simp) with hsame | ⟨next, hstay, hstay'⟩
    · rw [lex, lex, hsame]
    · have hstays : ∀ before, ¬ (Scanner.resume before (c :: cs)).rest.length < (c :: cs).length :=
        fun _ => Nat.lt_irrefl _
      rw [lex, lex, hstay, hstay', dif_neg (hstays last), dif_neg (hstays last')]
      rfl

namespace JavaScript

open Lexeme

private theorem keyword?_resume (hlast : last ≠ ['.']) (hlast' : last' ≠ ['.']) (rest : Text) :
    keyword? (.resume last rest) = keyword? (.resume last' rest) := by
  have hpoint : ¬ (Scanner.resume last rest).lastMatch = ['.'] := hlast
  have hpoint' : ¬ (Scanner.resume last' rest).lastMatch = ['.'] := hlast'
  rw [keyword?, keyword?, if_neg hpoint, if_neg hpoint']
  rfl

private theorem plain?_resume (hlast : last ≠ ['.']) (hlast' : last' ≠ ['.']) (rest : Text) :
    plain? (.resume last rest) = plain? (.resume last' rest) := by
  rw [plain?, plain?, keyword?_resume hlast hlast']
  rfl

private theorem scanString_resume (quote : Char) (hrest : rest ≠ []) (last last' : Text)
    (st : State) :
    scanString quote (.resume last rest) st = scanString quote (.resume last' rest) st := by
  rw [scanString, scanString, Scanner.accept_resume stringBody_total hrest last last']
  rfl

theorem lex_last (hlast : last ≠ ['.']) (hlast' : last' ≠ ['.']) (rest : Text) (st : State) :
    language.lex last rest st = language.lex last' rest st := by
  apply Language.lex_congr
  intro hrest
  change SameStep _ _ _ (scan _ _) (scan _ _)
  by_cases hcomment : st.inBlockComment = true
  · simp only [scan, if_pos hcomment, scanComment_resume blockClose hrest last last']
    exact .inl rfl
  · simp only [scan, if_neg hcomment]
    cases st.openString? with
    | some quote => exact .inl (scanString_resume quote hrest last last' st)
    | none =>
      dsimp only
      rw [scanCode, scanCode, plain?_resume hlast hlast']
      exact getD_sameStep _ last last' rest st

end JavaScript

namespace Json

open Lexeme

private theorem valueKeyword?_resume (hlast : last ≠ ['.']) (hlast' : last' ≠ ['.']) (rest : Text) :
    valueKeyword? (.resume last rest) = valueKeyword? (.resume last' rest) := by
  have hpoint : ¬ (Scanner.resume last rest).lastMatch = ['.'] := hlast
  have hpoint' : ¬ (Scanner.resume last' rest).lastMatch = ['.'] := hlast'
  rw [valueKeyword?, valueKeyword?, if_neg hpoint, if_neg hpoint']
  rfl

private theorem scanString_resume (quote : Char) (hrest : rest ≠ []) (last last' : Text)
    (st : State) :
    scanString quote (.resume last rest) st = scanString quote (.resume last' rest) st := by
  rw [scanString, scanString, Scanner.accept_resume stringBody_total hrest last last']
  rfl

/-- What precedes the rest of a line counts only if it is a point. -/
theorem lex_last (hlast : last ≠ ['.']) (hlast' : last' ≠ ['.']) (rest : Text) (st : State) :
    language.lex last rest st = language.lex last' rest st := by
  apply Language.lex_congr
  intro hrest
  change SameStep _ _ _ (scan _ _) (scan _ _)
  by_cases hcomment : st.inBlockComment = true
  · simp only [scan, if_pos hcomment, scanComment_resume blockClose hrest last last']
    exact .inl rfl
  · simp only [scan, if_neg hcomment]
    cases st.stringOpener with
    | some quote => exact .inl (scanString_resume quote hrest last last' st)
    | none =>
      dsimp only
      rw [scanCode, scanCode, valueKeyword?_resume hlast hlast']
      exact getD_sameStep _ last last' rest st

end Json

namespace Css

open Lexeme

private theorem scanString_resume (quote : Char) (hrest : rest ≠ []) (last last' : Text)
    (st : State) :
    scanString quote (.resume last rest) st = scanString quote (.resume last' rest) st := by
  rw [scanString, scanString, Scanner.accept_resume stringPiece_total hrest last last']
  rfl

theorem lex_last (last last' rest : Text) (st : State) :
    language.lex last rest st = language.lex last' rest st := by
  apply Language.lex_congr
  intro hrest
  change SameStep _ _ _ (scan _ _) (scan _ _)
  by_cases hcomment : st.inBlockComment = true
  · simp only [scan, if_pos hcomment, scanComment_resume blockClose hrest last last']
    exact .inl rfl
  · have hshared : ∀ before : Text,
        (bracket? (.resume before rest) st <|> openComment? (.resume before rest) st
          <|> ((Scanner.resume before rest).token? .escape escape).map (·, st)) =
        (bracket? (.resume last rest) st <|> openComment? (.resume last rest) st
          <|> ((Scanner.resume last rest).token? .escape escape).map (·, st)) := fun _ => rfl
    simp only [scan, if_neg hcomment, hshared last']
    split
    · exact .inl rfl
    · cases st.stringOpener with
      | some quote => exact .inl (scanString_resume quote hrest last last' st)
      | none =>
        dsimp only
        have hquote : openString? (.resume last' rest) st = openString? (.resume last rest) st := rfl
        rw [hquote]
        cases openString? (.resume last rest) st with
        | some next => exact .inl rfl
        | none => exact getD_sameStep _ last last' rest { st with afterComparator := false }

end Css

namespace Html

open Lexeme

private theorem scanQuotedValue_resume (quote : Char) (hrest : rest ≠ []) (last last' : Text)
    (st : State) :
    scanQuotedValue quote (.resume last rest) st = scanQuotedValue quote (.resume last' rest) st := by
  rw [scanQuotedValue, scanQuotedValue, Scanner.accept_resume valuePiece_total hrest last last']
  rfl

private theorem scanMarkup_sameStep (hrest : rest ≠ []) (last last' : Text) (st : State) :
    SameStep last last' rest (scanMarkup (.resume last rest) st)
      (scanMarkup (.resume last' rest) st) := by
  by_cases hcomment : st.inBlockComment = true
  · simp only [scanMarkup, if_pos hcomment, scanComment_resume commentClose hrest last last']
    exact .inl rfl
  · have hentity : (Scanner.resume last' rest).token? .escape entity =
        (Scanner.resume last rest).token? .escape entity := rfl
    simp only [scanMarkup, if_neg hcomment, hentity]
    cases (Scanner.resume last rest).token? .escape entity with
    | some s => exact .inl rfl
    | none =>
      dsimp only
      split
      · cases st.valueOpener with
        | some quote => exact .inl (scanQuotedValue_resume quote hrest last last' st)
        | none => exact getD_sameStep _ last last' rest st
      · split
        · exact getD_sameStep _ last last' rest st
        · exact getD_sameStep _ last last' rest st

private theorem scanEmbedded_sameStep (hrest : rest ≠ []) (last last' : Text) (block : Embedded)
    (st : State) :
    SameStep last last' rest (scanEmbedded block (.resume last rest) st)
      (scanEmbedded block (.resume last' rest) st) := by
  have hrest' : ∀ before, (Scanner.resume before rest).rest = rest := fun _ => rfl
  simp only [scanEmbedded, hrest']
  split
  · exact scanMarkup_sameStep hrest last last' _
  · exact .inl rfl

theorem lex_last (last last' rest : Text) (st : State) :
    language.lex last rest st = language.lex last' rest st := by
  apply Language.lex_congr
  intro hrest
  change SameStep _ _ _ (scan _ _) (scan _ _)
  rw [scan, scan]
  cases st.embedded with
  | some block => exact scanEmbedded_sameStep hrest last last' block st
  | none => exact scanMarkup_sameStep hrest last last' st

end Html
end Highlight
