import Highlight.Css.Language
import Highlight.Proofs.Language.Lexeme
import Highlight.Proofs.Language.Loop
/-! # The steps of CSS are faithful -/
namespace Highlight.Css

open Lexeme Scanner

private theorem bracket_faithful (st : State) : Faithful fun s => bracket? s st := by
  have hopen := faithful_tokenChar .text '{' { st with inRule := true }
  have hclose := faithful_tokenChar .text '}' { st with inRule := false }
  have hselect := faithful_tokenChar .text '[' { st with inAttributeSelector := true }
  have hselected := faithful_tokenChar .text ']' { st with inAttributeSelector := false }
  exact hopen.orElse (hclose.orElse (hselect.orElse hselected))

theorem stringPiece_total : (Pattern.alt stringBody (.one fun _ => true)).Total :=
  Pattern.total_alt fun _ => .inr rfl

private theorem scanString_faithful (quote : Char) (st : State) :
    Faithful fun s => some (scanString quote s st) := by
  have hclose := faithful_tokenChar .string quote { st with stringOpener := none }
  apply (hclose.getD (faithful_accept_emit stringPiece_total .string st)).congr
  intro s
  rw [scanString]
  cases s.tokenChar? .string quote <;> rfl

private theorem openString_faithful (st : State) : Faithful fun s => openString? s st := by
  have hquote := faithful_tokenMatch .string quote fun mark =>
    { st with stringOpener := mark.head?, afterComparator := false }
  exact hquote

private theorem quantity_faithful (st : State) : Faithful fun s => (quantity? s).map (·, st) :=
  faithful_token_token .number .identifier number unit st

private theorem code_faithful (st : State) : Faithful fun s => code? s st := by
  have hflag : Faithful fun s => (caseFlag? s st).map (·, st) :=
    .onlyIf _ _ (faithful_tokenBefore _ _ _ _)
  have hproperty : Faithful fun s => (property? s st).map (·, st) :=
    .onlyIf _ _ (faithful_tokenBefore _ _ _ _)
  have hatRule : Faithful fun s => atRule? s st := faithful_token _ _ _
  have hcolour : Faithful fun s => (colour? s st).map (·, st) :=
    .onlyIf _ _ (faithful_token _ _ _)
  have hselector := faithful_token .identifier (.seq (oneOf ['#', '.']) name) st
  have hpseudo := faithful_token .callIdentifier
    (.all [.char ':', .optional (.char ':'), name]) st
  have hname := faithful_token (if st.inValue then .identifier else .keyword) name st
  have hcomparator : Faithful fun s => comparator? s st := faithful_tokenAny _ _ _
  have hoperator := faithful_tokenAny .operator operators st
  have hblanks := faithful_token .whitespace blanks st
  have hword := hpseudo.either _ (hname.either _ (quantity_faithful st))
  have hvalue := hcolour.either _ (hselector.either _ hword)
  have hsymbol := hcomparator.orElse (hoperator.either _ hblanks)
  exact (hflag.either _ hproperty).orElse (hatRule.orElse (hvalue.orElse hsymbol))

private theorem scanCode_faithful (st : State) : Faithful fun s => some (scanCode s st) := by
  let past := { st with afterComparator := false }
  have hvalue : Faithful fun s => (bareValue? s st).map (·, past) :=
    .onlyIf _ _ (faithful_token _ _ _)
  exact (hvalue.orElse (code_faithful past)).getD (.stay past)

theorem isFaithful : language.IsFaithful := by
  intro st
  show Faithful fun s => some (scan s st)
  by_cases hcomment : st.inBlockComment = true
  · simp only [scan, if_pos hcomment]
    exact scanComment_faithful blockClose fun ended => { st with inBlockComment := !ended }
  -- What strings share with the rest comes first.
  have hcommentOpen : Faithful fun s => openComment? s st := faithful_tokenText _ _ _
  have hescape := faithful_token .escape escape st
  have hshared := (bracket_faithful st).orElse (hcommentOpen.orElse hescape)
  cases hopener : st.stringOpener with
  | some quote =>
    apply hshared.first (scanString_faithful quote st)
    · intro s r hs
      rw [scan, if_neg hcomment, hs]
    · intro s hs
      rw [scan, if_neg hcomment, hs, hopener]
  | none =>
    apply hshared.first ((openString_faithful st).getD (scanCode_faithful st))
    · intro s r hs
      rw [scan, if_neg hcomment, hs]
    · intro s hs
      rw [scan, if_neg hcomment, hs, hopener]

end Highlight.Css
