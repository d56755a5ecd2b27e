import Highlight.PlainText
import Highlight.Proofs.Language.Html
import Highlight.Proofs.Language.Json
/-! # Nothing of a line is lost

Each language of the library cuts a line into tokens: reading ends, the tokens spell the line, and
none of them is empty. This holds for all lines and in all states, also in those that no document
leads to.
-/
namespace Highlight

namespace PlainText

open Scanner

private theorem isFaithful : language.IsFaithful := by
  intro st
  exact faithful_decided fun _ rest => some (rest.length, .text, st)

end PlainText

theorem languages_partition :
    (∀ line inbound, JavaScript.language.Partitions line inbound) ∧
      (∀ line inbound, Css.language.Partitions line inbound) ∧
      (∀ line inbound, Html.language.Partitions line inbound) ∧
      (∀ line inbound, Json.language.Partitions line inbound) ∧
      (∀ line inbound, PlainText.language.Partitions line inbound) := by
  have hjavaScript := JavaScript.isFaithful.partitions
  have hcss := Css.isFaithful.partitions
  have hhtml := Html.isFaithful.partitions
  have hjson := Json.isFaithful.partitions
  have hplainText := PlainText.isFaithful.partitions
  exact ⟨hjavaScript, hcss, hhtml, hjson, hplainText⟩

end Highlight
