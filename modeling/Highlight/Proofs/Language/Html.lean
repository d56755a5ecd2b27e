import Highlight.Html.Language
import Highlight.Proofs.Language.Css
import Highlight.Proofs.Language.JavaScript
/-! # The steps of HTML are faithful

The block of another language counts as one step; its tokens spell it because that language reads
it without loss.
-/
namespace Highlight.Html

open Lexeme Scanner

private theorem endTag_faithful (st : State) : Faithful fun s => endTag? s st :=
  faithful_tokenChar _ _ _

theorem valuePiece_total : (Pattern.alt quotedValueBody (.one fun _ => true)).Total :=
  Pattern.total_alt fun _ => .inr rfl

private theorem scanQuotedValue_faithful (quote : Char) (st : State) :
    Faithful fun s => some (scanQuotedValue quote s st) := by
  have hclose := faithful_tokenChar .string quote
    { st with inAttributeValue := false, valueOpener := none }
  apply (hclose.getD (faithful_accept_emit valuePiece_total .string st)).congr
  intro s
  rw [scanQuotedValue]
  cases s.tokenChar? .string quote <;> rfl

private theorem openValue_faithful (st : State) : Faithful fun s => openValue? s st := by
  have hquote := faithful_tokenMatch .string quote fun mark =>
    { st with valueOpener := mark.head? }
  exact hquote

private theorem scanBareValue_faithful (st : State) :
    Faithful fun s => some (scanBareValue s st) := by
  have hblanks := faithful_token .whitespace blanks { st with inAttributeValue := false }
  have hvalue := faithful_token .string bareValue st
  have hinside := hblanks.orElse ((openValue_faithful st).orElse hvalue)
  exact ((endTag_faithful st).orElse hinside).getD (.stay st)

private theorem assignedAttribute_faithful (st : State) :
    Faithful fun s => assignedAttribute? s st := by
  have hassigned := faithful_tokenBefore_accept .identifier .syntaxSymbol attributeName equals
    fun _ _ => { st with inAttributeValue := true }
  exact hassigned

private theorem scanTag_faithful (st : State) : Faithful fun s => some (scanTag s st) := by
  have hname := faithful_token .identifier attributeName st
  have hclosed := faithful_tokenText .syntaxSymbol "/>".toList { st with inTag := false }
  have hblanks := faithful_token .whitespace blanks st
  have hend := hclosed.orElse ((endTag_faithful st).orElse hblanks)
  exact ((assignedAttribute_faithful st).orElse (hname.orElse hend)).getD (.stay st)

private theorem openTag_faithful (st : State) : Faithful fun s => openTag? s st := by
  have hnamed := faithful_tokenBefore_accept .syntaxSymbol .keyword tagOpen tagName
    fun bracket name =>
      { st with
        closingTag := bracket == ['<', '/']
        inTag := true
        tagName := some (Text.lowercase name) }
  exact hnamed

private theorem scanContent_faithful (st : State) : Faithful fun s => some (scanContent s st) := by
  have hcomment : Faithful fun s => openComment? s st := faithful_tokenText _ _ _
  have htext := faithful_token .text plainText st
  exact (hcomment.orElse ((openTag_faithful st).orElse htext)).getD (.stay st)

private theorem scanMarkup_faithful (st : State) : Faithful fun s => some (scanMarkup s st) := by
  by_cases hcomment : st.inBlockComment = true
  · simp only [scanMarkup, if_pos hcomment]
    exact scanComment_faithful commentClose fun ended => { st with inBlockComment := !ended }
  -- A character reference comes first, wherever the line is.
  have hentity := faithful_token .escape entity st
  have hsome : ∀ s r, (s.token? .escape entity).map (·, st) = some r → scanMarkup s st = r := by
    intro s r hs
    obtain ⟨t, ht, rfl⟩ := Option.map_eq_some_iff.mp hs
    rw [scanMarkup, if_neg hcomment, ht]
  by_cases hvalue : st.inAttributeValue = true
  · cases hopener : st.valueOpener with
    | some quote =>
      apply hentity.first (scanQuotedValue_faithful quote st) hsome
      intro s hs
      rw [scanMarkup, if_neg hcomment, Option.map_eq_none_iff.mp hs]
      rw [if_pos hvalue, hopener]
    | none =>
      apply hentity.first (scanBareValue_faithful st) hsome
      intro s hs
      rw [scanMarkup, if_neg hcomment, Option.map_eq_none_iff.mp hs]
      rw [if_pos hvalue, hopener]
  by_cases htag : st.inTag = true
  · apply hentity.first (scanTag_faithful st) hsome
    intro s hs
    rw [scanMarkup, if_neg hcomment, Option.map_eq_none_iff.mp hs]
    rw [if_neg hvalue, if_pos htag]
  · apply hentity.first (scanContent_faithful st) hsome
    intro s hs
    rw [scanMarkup, if_neg hcomment, Option.map_eq_none_iff.mp hs]
    rw [if_neg hvalue, if_neg htag]

private theorem Embedded.tokenize_partitions (block : Embedded) (part : Text) :
    (∀ token ∈ (block.tokenize part).1, token.text ≠ []) ∧
      Token.spell (block.tokenize part).1 = part := by
  cases block with
  | javaScript st =>
    have hread := JavaScript.isFaithful.partitions part st
    exact ⟨hread.nonempty, hread.spells⟩
  | css st =>
    have hread := Css.isFaithful.partitions part st
    exact ⟨hread.nonempty, hread.spells⟩

private theorem scanEmbedded_faithful (block : Embedded) (st : State) :
    Faithful fun s => some (scanEmbedded block s st) := by
  constructor
  · intro s r hs h
    obtain rfl := Option.some.inj h
    rw [scanEmbedded]
    split
    · exact (scanMarkup_faithful _).covers s _ hs rfl
    · obtain ⟨hne, hspell⟩ := block.tokenize_partitions
        (s.rest.take ((findClosingTag? block.tagName s.rest).getD s.rest.length))
      exact covers_embed s _ _ (List.take_append_drop _ _).symm _ hne hspell
  · intro s consumed tokens
    rw [scanEmbedded, scanEmbedded, after_rest]
    dsimp only
    split
    · exact (scanMarkup_faithful _).blind s consumed tokens
    · rw [embed_after]
      rfl

theorem isFaithful : language.IsFaithful := by
  intro st
  show Faithful fun s => some (scan s st)
  cases hblock : st.embedded with
  | some block =>
    simp only [scan, hblock]
    exact scanEmbedded_faithful block st
  | none =>
    simp only [scan, hblock]
    exact scanMarkup_faithful st

end Highlight.Html
