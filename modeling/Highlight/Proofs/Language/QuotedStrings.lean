import Highlight.Proofs.JavaScript.Quoted
import Highlight.Proofs.Json.Strings
/-! # Strings that go on in the next line

JavaScript and JSON keep a string in quotes open over the end of a line that a backslash escapes.
The line behind it ends the string at the first quote of its kind that is not escaped, and is read
from there as if it began there; or it belongs to the string as a whole.
-/
namespace Highlight

open Lexeme

/-- Behind any lines, a string in quotes that they leave open is read on to the first quote of its
kind that an even number of backslashes precedes. In JSON it is the name of a member or a value as
it was when it began. -/
theorem quoted_strings_read (earlier : List Text) (q : Char) :
    let script := JavaScript.language.tokenizer.behind JavaScript.language.initial earlier
    let data := Json.language.tokenizer.behind Json.language.initial earlier
    (script.openString? = some q → isQuote q = true →
      JavaScript.language.ReadsQuoted .string JavaScript.State.openString? q script
        { script with current := { script.current with opener := none } }) ∧
    (data.stringOpener = some q →
      Json.language.ReadsQuoted data.stringKind Json.State.stringOpener q data
        { data with stringOpener := none }) := by
  intro script data
  constructor
  · intro hopen hq
    have h : script.BetweenLines := JavaScript.behind_betweenLines earlier
    exact h.readsQuoted hopen hq
  · intro hopen
    have h : data.Coherent := Json.behind_coherent earlier
    exact h.readsQuoted hopen

/-- In JavaScript an escaped quote and then the one that ends the string, in JSON a line that
leaves the name of a member open once more. -/
theorem quoted_strings_read_escaped :
    let q := Text.singleQuote
    let script := JavaScript.language.tokenizer.behind JavaScript.language.initial
      [[q, Text.backslash]]
    let closed := { script with current := { script.current with opener := none } }
    let data := Json.language.tokenizer.behind Json.language.initial [['{', q, Text.backslash]]
    let body : Text := ['a', Text.backslash, q]
    let cut : Text := ['a', Text.backslash]
    (script.openString? = some q ∧ isQuote q = true ∧
      (AllEscaped q body ∧ ¬ EndsEscaped body ∧ ∃ tokens, StringTokens .string body tokens ∧
        JavaScript.language.tokenizeLine (body ++ q :: [';']) script =
          ⟨tokens ++ ⟨.string, [q]⟩ :: (JavaScript.language.tokenizeLine [';'] closed).tokens,
            (JavaScript.language.tokenizeLine [';'] closed).outbound⟩)) ∧
    (data.stringOpener = some q ∧ data.stringKind = .identifier ∧
      (AllEscaped q cut ∧ EndsEscaped cut ∧
        StringTokens .identifier cut (Json.language.tokenizeLine cut data).tokens ∧
        (Json.language.tokenizeLine cut data).outbound.stringOpener = some q)) := by
  intro q script closed data body cut
  have hbody : AllEscaped q body := by decide
  have hends : ¬ EndsEscaped body := by decide
  have hcut : AllEscaped q cut := by decide
  have hescaped : EndsEscaped cut := by decide
  have hscript : script.openString? = some q := by decide +kernel
  have hdata : data.stringOpener = some q := by decide +kernel
  have hname : data.stringKind = .identifier := by decide +kernel
  have hread := (quoted_strings_read [[q, Text.backslash]] q).1 hscript rfl
  have hread' := (quoted_strings_read [['{', q, Text.backslash]] q).2 hdata
  obtain ⟨htokens, hopen⟩ := hread'.goesOn cut hcut
  refine ⟨⟨hscript, rfl, hbody, hends, hread.ends body [';'] hbody hends⟩,
    hdata, hname, hcut, hescaped, ?_, hopen.mpr hescaped⟩
  rw [← hname]
  exact htokens

end Highlight
