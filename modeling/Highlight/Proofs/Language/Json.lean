import Highlight.Json.Language
import Highlight.Proofs.Language.Lexeme
import Highlight.Proofs.Language.Loop
/-! # The steps of JSON are faithful -/
namespace Highlight.Json

open Lexeme Scanner

theorem stringBody_total : stringBody.Total := by
  apply Pattern.total_alt
  intro c
  by_cases hnewline : c = '\n'
  · exact .inl (by rw [hnewline]; decide)
  · exact .inr (by simpa using hnewline)

private theorem scanString_faithful (quote : Char) (st : State) :
    Faithful fun s => some (scanString quote s st) := by
  have hescape := escape_faithful fun endsLine =>
    { st with newlineEscape := st.newlineEscape || endsLine }
  have hclose := faithful_tokenChar st.stringKind quote { st with stringOpener := none }
  have hbody : Faithful fun s => some ((s.accept stringBody).emit st.stringKind, st) :=
    faithful_accept_emit stringBody_total st.stringKind st
  apply (hescape.getD (hclose.getD hbody)).congr
  intro s
  rw [scanString]
  cases escape? s with
  | some r => rfl
  | none => cases s.tokenChar? st.stringKind quote <;> rfl

private theorem openString_faithful (st : State) : Faithful fun s => openString? s st := by
  have hquote := faithful_tokenMatch st.stringKind quote fun mark =>
    { st with stringOpener := mark.head? }
  exact hquote

private theorem bracket_faithful (st : State) : Faithful fun s => bracket? s st := by
  apply (faithful_decided fun _ rest => (rest.head?.bind BracketKind.of?).map fun bracket =>
    (1, .bracket, st.passBracket bracket.1 bracket.2)).congr
  intro s
  rw [bracket?]
  cases hs : s.rest with
  | nil => rfl
  | cons c cs =>
    have hone : s.acceptOne? = some (s.advance 1) := by
      simp [acceptOne?, accept?, hs, Pattern.one]
    cases hkind : BracketKind.of? c with
    | none => simp [hkind]
    | some bracket => simp [hkind, hone]

private theorem valueKeyword_faithful (st : State) :
    Faithful fun s => (valueKeyword? s).map (·, st) := by
  apply (faithful_classify identifier (fun before word =>
    if before = ['.'] then none
    else if valueKeywords.contains word then some .valueKeyword else none) st).congr
  intro s
  rw [valueKeyword?]
  split
  · cases s.peek? identifier <;> rfl
  · cases s.peek? identifier with
    | none => rfl
    | some word =>
      simp only [Option.bind_eq_bind, Option.bind_some]
      split <;> rfl

private theorem scanCode_faithful (st : State) : Faithful fun s => some (scanCode s st) := by
  have hblockComment : Faithful fun s => openComment? s st := faithful_tokenText _ _ _
  have hlineComment := faithful_token .comment lineComment st
  have hidentifier := faithful_token .identifier identifier st
  have hnumber := faithful_token .number signedNumber st
  have hcolon : Faithful fun s => colon? s st := faithful_tokenChar _ _ _
  have hcomma : Faithful fun s => comma? s st := faithful_tokenChar _ _ _
  have hblanks := faithful_token .whitespace blanks st
  have hsymbol := hnumber.orElse (hcolon.orElse (hcomma.orElse hblanks))
  have hvalue := (valueKeyword_faithful st).orElse (hidentifier.orElse hsymbol)
  have hplain := hlineComment.orElse ((bracket_faithful st).orElse hvalue)
  exact ((openString_faithful st).orElse (hblockComment.orElse hplain)).getD (.stay st)

theorem isFaithful : language.IsFaithful := by
  intro st
  show Faithful fun s => some (scan s st)
  by_cases hcomment : st.inBlockComment = true
  · simp only [scan, if_pos hcomment]
    exact scanComment_faithful blockClose fun ended => { st with inBlockComment := !ended }
  · cases hopen : st.stringOpener with
    | some quote =>
      simp only [scan, if_neg hcomment, hopen]
      exact scanString_faithful quote st
    | none =>
      simp only [scan, if_neg hcomment, hopen]
      exact scanCode_faithful st

end Highlight.Json
