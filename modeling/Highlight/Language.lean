import Highlight.Scanner
import Highlight.Tokenizer
/-! # Languages

A language says how one step reads the start of the rest of a line. The steps are repeated until
the line is used up; a step that consumes nothing costs one character, emitted as plain text, so
the loop ends for every language.
-/
namespace Highlight

/-- The lexical rules of a language whose memory between lines is `σ`. -/
structure Language (σ : Type) where
  id : Text
  /-- The state before the first line of a document. -/
  initial : σ
  /-- Done to the state before a line is read. -/
  beginLine : σ → σ := fun st => st
  scan : Scanner → σ → Scanner × σ
  /-- Done to the state after a line was read. -/
  endLine : σ → σ := fun st => st

namespace Language

variable {σ : Type}

/-- Reads the rest of a line, given the last match before it. -/
def lex (L : Language σ) (lastMatch : Text) : Text → σ → List Token × σ
  | [], st => ([], st)
  | c :: cs, st =>
    let step := L.scan (.resume lastMatch (c :: cs)) st
    if _h : step.1.rest.length < (c :: cs).length then
      let more := L.lex step.1.lastMatch step.1.rest step.2
      (step.1.tokens ++ more.1, more.2)
    else
      let more := L.lex [c] cs step.2
      (step.1.tokens ++ ⟨.text, [c]⟩ :: more.1, more.2)
termination_by rest => rest.length
decreasing_by
  · exact _h
  · exact Nat.lt_succ_self cs.length

def tokenizeLine (L : Language σ) (line : Text) (inbound : σ) : LineTokens σ :=
  let result := L.lex [] line (L.beginLine inbound)
  { tokens := result.1, outbound := L.endLine result.2 }

def tokenizer (L : Language σ) : Tokenizer σ where
  id := L.id
  initial := L.initial
  tokenize := L.tokenizeLine

end Language
end Highlight
