import Highlight.Proofs.Language.JavaScript
import Highlight.Proofs.Language.OneToken
/-! # One token a step, in JavaScript

No step emits more than one token. Those of strings, templates and comments are all that is emitted
but by the steps in code that leave the state alone. So to say something of all tokens of a line it
has to be shown of those steps, and to hold of all strings, escapes and comments.
-/
namespace Highlight.JavaScript

open Lexeme Scanner

/-- The kinds of the tokens in strings, templates and comments and at their ends. -/
def enclosedKinds : List TokenKind := [.string, .escape, .comment]

variable {P : Token → Prop} {last rest : Text}

private theorem emitsOne_of_enclosed {α : Type} {kind : TokenKind}
    (hP : ∀ kind ∈ enclosedKinds, ∀ text, P ⟨kind, text⟩) (hkind : kind ∈ enclosedKinds)
    {g : Scanner → Option Scanner} (hg : Consuming g) (last rest : Text) (k : Scanner → α) :
    EmitsOne P (((g (.resume last rest)).map (·.emit kind)).map fun s => (s, k s)) :=
  .of_kind hg (hP kind hkind) last rest k

private theorem escape_emitsOne (hP : ∀ kind ∈ enclosedKinds, ∀ text, P ⟨kind, text⟩) :
    EmitsOne P (escape? (.resume last rest)) := by
  have hescape : TokenKind.escape ∈ enclosedKinds := by decide
  have hcode := emitsOne_of_enclosed hP hescape
    (consuming_accept (.any [octalEscape, hexEscape, unicodeEscape])) last rest fun _ => false
  have hlineEnd := emitsOne_of_enclosed hP hescape (consuming_accept lineEndEscape) last rest
    fun _ => true
  have hsingle := emitsOne_of_enclosed hP hescape (consuming_accept singleEscape) last rest
    fun _ => false
  exact hcode.orElse (hlineEnd.orElse hsingle)

private theorem scanString_emitsOne (hP : ∀ kind ∈ enclosedKinds, ∀ text, P ⟨kind, text⟩)
    (quote : Char) (st : State) : EmitsOne P (some (scanString quote (.resume last rest) st)) := by
  have hstring : TokenKind.string ∈ enclosedKinds := by decide
  have hescape : EmitsOne P (escape? (.resume last rest)) := escape_emitsOne hP
  have hplaceholder : EmitsOne P (openPlaceholder? (.resume last rest) st) := by
    rw [openPlaceholder?]
    split
    · exact emitsOne_of_enclosed hP hstring (consuming_acceptText placeholderOpen) last rest _
    · exact .none _
  have hclose : EmitsOne P (closeString? quote (.resume last rest) st) :=
    emitsOne_of_enclosed hP hstring (consuming_acceptChar quote) last rest _
  have hbody := EmitsOne.accept (hP .string hstring) stringBody last rest st
  rw [scanString]
  cases hread : escape? (Scanner.resume last rest) with
  | none => exact (hplaceholder.orElse hclose).getD hbody
  | some next =>
    rw [hread] at hescape
    exact hescape.map fun endsLine =>
      { st with newlineEscape := st.newlineEscape || endsLine }

private theorem scanComment_emitsOne (hP : ∀ kind ∈ enclosedKinds, ∀ text, P ⟨kind, text⟩)
    (close : Text) : EmitsOne P (some (scanComment close (.resume last rest))) := by
  have hcomment : TokenKind.comment ∈ enclosedKinds := by decide
  have hclose : EmitsOne P (((Scanner.resume last rest).tokenText? .comment close).map (·, true)) :=
    emitsOne_of_enclosed hP hcomment (consuming_acceptText close) last rest fun _ => true
  have hbody := EmitsOne.accept (hP .comment hcomment) (commentBody close) last rest false
  rw [scanComment]
  cases hread : (Scanner.resume last rest).tokenText? .comment close with
  | none => exact hbody
  | some s => rwa [hread] at hclose

private theorem scanCode_emitsOne (hP : ∀ kind ∈ enclosedKinds, ∀ text, P ⟨kind, text⟩) {st : State}
    (hplain : EmitsOne P ((plain? (.resume last rest)).map (·, st))) :
    EmitsOne P (some (scanCode (.resume last rest) st)) := by
  have hstring : TokenKind.string ∈ enclosedKinds := by decide
  have hcomment : TokenKind.comment ∈ enclosedKinds := by decide
  have hclose : EmitsOne P (closePlaceholder? (.resume last rest) st) := by
    rw [closePlaceholder?]
    split
    · exact emitsOne_of_enclosed hP hstring (consuming_acceptChar '}') last rest _
    · exact .none _
  have htemplate : EmitsOne P (openTemplate? (.resume last rest) st) :=
    emitsOne_of_enclosed hP hstring (consuming_acceptChar Text.backquote) last rest _
  have hquote : EmitsOne P (openString? (.resume last rest) st) :=
    emitsOne_of_enclosed hP hstring (consuming_accept quote) last rest _
  have hopen : EmitsOne P (openComment? (.resume last rest) st) :=
    emitsOne_of_enclosed hP hcomment (consuming_acceptText blockOpen) last rest _
  have hcode := htemplate.orElse (hquote.orElse (hopen.orElse hplain))
  exact (hclose.orElse hcode).getD (.stay _ last rest st)

/-- What holds of strings, escapes and comments and of the tokens of the steps in code that leave
the state alone holds of the tokens of all steps. -/
theorem scan_emitsOne_of_plain (hP : ∀ kind ∈ enclosedKinds, ∀ text, P ⟨kind, text⟩) {st : State}
    (hplain : EmitsOne P ((plain? (.resume last rest)).map (·, st))) :
    EmitsOne P (some (scan (.resume last rest) st)) := by
  by_cases hcomment : st.inBlockComment = true
  · simp only [scan, if_pos hcomment]
    exact (scanComment_emitsOne hP blockClose).map fun ended =>
      { st with inBlockComment := !ended }
  · cases hopen : st.openString? with
    | some quote =>
      simp only [scan, if_neg hcomment, hopen]
      exact scanString_emitsOne hP quote st
    | none =>
      simp only [scan, if_neg hcomment, hopen]
      exact scanCode_emitsOne hP hplain

end Highlight.JavaScript
