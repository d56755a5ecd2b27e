import Highlight.Proofs.Language.LastMatch
import Highlight.Proofs.Lexeme.Comment
/-! # Comments that go on in the next line

All four languages have comments between two marks that go on over the end of a line. Whatever else
the state says, a line that finds one open reads it on to the first mark that ends it, and from there
as if the line began there; or it belongs to the comment as a whole.
-/
namespace Highlight

open Lexeme

namespace JavaScript

private theorem endLine_inBlockComment (st : State) :
    (endLine st).inBlockComment = st.inBlockComment := by
  unfold endLine
  split <;> rfl

private theorem State.readsComment {st : State} (h : st.inBlockComment = true) :
    language.ReadsComment blockClose State.inBlockComment st
      { st with inBlockComment := false } := by
  let flagged (on : Bool) : State := { st with newlineEscape := false, inBlockComment := on }
  have hscans : language.ScansComment blockClose (flagged true) (flagged false) :=
    .of_flag (by decide) fun _ => rfl
  have hinside : language.beginLine st = flagged true := by
    change { st with newlineEscape := false } = flagged true
    rw [← h]
  exact hscans.readsComment hinside rfl
    (fun r => lex_last (by decide) (by decide) r _) (endLine_inBlockComment _)

end JavaScript

namespace Json

private theorem endLine_inBlockComment (st : State) :
    (endLine st).inBlockComment = st.inBlockComment := by
  unfold endLine
  split <;> rfl

private theorem State.readsComment {st : State} (h : st.inBlockComment = true) :
    language.ReadsComment blockClose State.inBlockComment st
      { st with inBlockComment := false } := by
  let flagged (on : Bool) : State := { st with newlineEscape := false, inBlockComment := on }
  have hscans : language.ScansComment blockClose (flagged true) (flagged false) :=
    .of_flag (by decide) fun _ => rfl
  have hinside : language.beginLine st = flagged true := by
    change { st with newlineEscape := false } = flagged true
    rw [← h]
  exact hscans.readsComment hinside rfl
    (fun r => lex_last (by decide) (by decide) r _) (endLine_inBlockComment _)

end Json

namespace Css

private theorem State.readsComment {st : State} (h : st.inBlockComment = true) :
    language.ReadsComment blockClose State.inBlockComment st
      { st with inBlockComment := false } := by
  let flagged (on : Bool) : State := { st with inBlockComment := on }
  have hscans : language.ScansComment blockClose (flagged true) (flagged false) :=
    .of_flag (by decide) fun _ => rfl
  have hinside : language.beginLine st = flagged true := by
    change st = flagged true
    rw [← h]
  exact hscans.readsComment hinside rfl (fun r => lex_last _ _ r _) rfl

end Css

namespace Html

private theorem endLine_inBlockComment (st : State) :
    (endLine st).inBlockComment = st.inBlockComment := by
  unfold endLine
  split <;> rfl

private theorem State.readsComment {st : State} (h : st.inBlockComment = true)
    (hembedded : st.embedded = none) :
    language.ReadsComment commentClose State.inBlockComment st
      { st with inBlockComment := false } := by
  let flagged (on : Bool) : State := { st with inBlockComment := on }
  have hmarkup : ∀ s, scan s (flagged true) = scanMarkup s (flagged true) := by
    intro s
    have hnone : (flagged true).embedded = none := hembedded
    rw [scan, hnone]
  have hscans : language.ScansComment commentClose (flagged true) (flagged false) :=
    .of_flag (by decide) hmarkup
  have hinside : language.beginLine st = flagged true := by
    change st = flagged true
    rw [← h]
  exact hscans.readsComment hinside rfl (fun r => lex_last _ _ r _) (endLine_inBlockComment _)

end Html

/-- From any state inside a comment a line is read as the comment up to the first mark that ends it,
and from there as a line of its own; without that mark the comment goes on. -/
theorem comments_read (script : JavaScript.State) (data : Json.State) (sheet : Css.State)
    (page : Html.State) :
    (script.inBlockComment = true →
      JavaScript.language.ReadsComment blockClose JavaScript.State.inBlockComment script
        { script with inBlockComment := false }) ∧
    (data.inBlockComment = true →
      Json.language.ReadsComment blockClose Json.State.inBlockComment data
        { data with inBlockComment := false }) ∧
    (sheet.inBlockComment = true →
      Css.language.ReadsComment blockClose Css.State.inBlockComment sheet
        { sheet with inBlockComment := false }) ∧
    (page.inBlockComment = true → page.embedded = none →
      Html.language.ReadsComment Html.commentClose Html.State.inBlockComment page
        { page with inBlockComment := false }) :=
  ⟨JavaScript.State.readsComment, Json.State.readsComment, Css.State.readsComment,
    Html.State.readsComment⟩

/-- Runs of stars and hyphens in front of the mark, a star and a slash that are no mark, and a tag
around a comment. -/
theorem comments_read_runs :
    let script : JavaScript.State := { inBlockComment := true }
    let data : Json.State := { inBlockComment := true, brackets := [.object] }
    let sheet : Css.State := { inBlockComment := true, inRule := true }
    let page : Html.State := { inBlockComment := true, inTag := true, tagName := some ['p'] }
    let stars : Text := "/***/".toList
    let unclosed : Text := "* /'*".toList
    let brace : Text := "\x7d**/".toList
    let hyphens : Text := "->--->".toList
    (script.inBlockComment = true ∧ stars.EndsFirst blockClose ∧ ∃ tokens,
      CommentTokens stars tokens ∧
      JavaScript.language.tokenizeLine (stars ++ "a*/".toList) script =
        ⟨tokens ++ (JavaScript.language.tokenizeLine "a*/".toList {}).tokens,
          (JavaScript.language.tokenizeLine "a*/".toList {}).outbound⟩) ∧
    (data.inBlockComment = true ∧ ¬ blockClose <:+: unclosed ∧
      CommentTokens unclosed (Json.language.tokenizeLine unclosed data).tokens ∧
      (Json.language.tokenizeLine unclosed data).outbound.inBlockComment = true) ∧
    (sheet.inBlockComment = true ∧ brace.EndsFirst blockClose ∧ ∃ tokens,
      CommentTokens brace tokens ∧
      Css.language.tokenizeLine (brace ++ "a:b".toList) sheet =
        ⟨tokens ++ (Css.language.tokenizeLine "a:b".toList { inRule := true }).tokens,
          (Css.language.tokenizeLine "a:b".toList { inRule := true }).outbound⟩) ∧
    (page.inBlockComment = true ∧ page.embedded = none ∧ hyphens.EndsFirst Html.commentClose ∧
      ∃ tokens, CommentTokens hyphens tokens ∧
      Html.language.tokenizeLine (hyphens ++ "b>".toList) page =
        ⟨tokens ++ (Html.language.tokenizeLine "b>".toList
            { page with inBlockComment := false }).tokens,
          (Html.language.tokenizeLine "b>".toList
            { page with inBlockComment := false }).outbound⟩) := by
  intro script data sheet page stars unclosed brace hyphens
  obtain ⟨hscript, hdata, hsheet, hpage⟩ := comments_read script data sheet page
  have hstars : stars.EndsFirst blockClose := by decide
  have hopen : ¬ blockClose <:+: unclosed := by decide
  have hbrace : brace.EndsFirst blockClose := by decide
  have hhyphens : hyphens.EndsFirst Html.commentClose := by decide
  obtain ⟨hcover, hstays, -⟩ := (hdata rfl).goesOn unclosed hopen
  exact ⟨⟨rfl, hstars, (hscript rfl).ends stars _ hstars⟩, ⟨rfl, hopen, hcover, hstays⟩,
    ⟨rfl, hbrace, (hsheet rfl).ends brace _ hbrace⟩,
    ⟨rfl, rfl, hhyphens, (hpage rfl rfl).ends hyphens _ hhyphens⟩⟩

end Highlight
