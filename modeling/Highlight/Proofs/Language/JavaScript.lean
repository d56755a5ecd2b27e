import Highlight.JavaScript.Language
import Highlight.Proofs.Language.Lexeme
import Highlight.Proofs.Language.Loop
/-! # The steps of JavaScript are faithful -/
namespace Highlight.JavaScript

open Lexeme Scanner

theorem stringBody_total : stringBody.Total := by
  apply Pattern.total_alt
  intro c
  by_cases hnewline : c = '\n'
  · exact .inl (by rw [hnewline]; decide)
  · exact .inr (by simpa using hnewline)

private theorem openPlaceholder_faithful (st : State) :
    Faithful fun s => openPlaceholder? s st := by
  have hopen := faithful_tokenText .string placeholderOpen st.enterPlaceholder
  exact .ite _ hopen .fail

private theorem closeString_faithful (quote : Char) (st : State) :
    Faithful fun s => closeString? quote s st :=
  faithful_tokenChar _ _ _

private theorem scanString_faithful (quote : Char) (st : State) :
    Faithful fun s => some (scanString quote s st) := by
  have hescape := escape_faithful fun endsLine =>
    { st with newlineEscape := st.newlineEscape || endsLine }
  have hbody : Faithful fun s => some ((s.accept stringBody).emit .string, st) :=
    faithful_accept_emit stringBody_total .string st
  have hrest := ((openPlaceholder_faithful st).orElse (closeString_faithful quote st)).getD hbody
  apply (hescape.getD hrest).congr
  intro s
  rw [scanString]
  cases escape? s <;> rfl

private theorem closePlaceholder_faithful (st : State) :
    Faithful fun s => closePlaceholder? s st := by
  have hclose := faithful_tokenChar .string '}' st.leavePlaceholder
  exact .ite _ hclose .fail

private theorem openString_faithful (st : State) : Faithful fun s => openString? s st := by
  have hquote := faithful_tokenMatch .string quote fun mark =>
    { st with current := { st.current with opener := mark.head? } }
  exact hquote

private theorem keyword_faithful (st : State) : Faithful fun s => (keyword? s).map (·, st) := by
  have hword := faithful_classify identifier
    (fun before word => if before = ['.'] then none else wordKind? word) st
  apply hword.congr
  intro s
  rw [keyword?]
  split
  · cases s.peek? identifier <;> rfl
  · cases s.peek? identifier with
    | none => rfl
    | some word => cases hkind : wordKind? word <;> simp [hkind]

private theorem plain_faithful (st : State) : Faithful fun s => (plain? s).map (·, st) := by
  have hcomment := faithful_token .comment lineComment st
  have hcall := faithful_tokenBefore .callIdentifier identifier (.seq optionalBlanks (.char '(')) st
  have hidentifier := faithful_token .identifier identifier st
  have hnumber := faithful_token .number number st
  have hoperator := faithful_tokenAny .operator operators st
  have hblanks := faithful_token .whitespace blanks st
  have hsymbol := hnumber.either _ (hoperator.either _ hblanks)
  have hname := hcall.either _ (hidentifier.either _ hsymbol)
  exact hcomment.either _ ((keyword_faithful st).either _ hname)

private theorem scanCode_faithful (st : State) : Faithful fun s => some (scanCode s st) := by
  have htemplate : Faithful fun s => openTemplate? s st := faithful_tokenChar _ _ _
  have hcomment : Faithful fun s => openComment? s st := faithful_tokenText _ _ _
  have hstring := (openString_faithful st).orElse (hcomment.orElse (plain_faithful st))
  have hcode := (closePlaceholder_faithful st).orElse (htemplate.orElse hstring)
  exact hcode.getD (.stay st)

theorem isFaithful : language.IsFaithful := by
  intro st
  show Faithful fun s => some (scan s st)
  by_cases hcomment : st.inBlockComment = true
  · simp only [scan, if_pos hcomment]
    exact scanComment_faithful blockClose fun ended => { st with inBlockComment := !ended }
  · cases hopen : st.openString? with
    | some quote =>
      simp only [scan, if_neg hcomment, hopen]
      exact scanString_faithful quote st
    | none =>
      simp only [scan, if_neg hcomment, hopen]
      exact scanCode_faithful st

end Highlight.JavaScript
