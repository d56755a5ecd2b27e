import Highlight.Proofs.JavaScript.Template
import Highlight.Proofs.Language.LastMatch
import Highlight.Proofs.Lexeme.NumericLiteral
/-! # Reading numbers

A numeric literal at the start of a line of code is one token, whatever stands behind it that could
not go on with it; and what stands behind it is read as on a line of its own.
-/
namespace Highlight.JavaScript

open Lexeme Pattern

variable {last r : Text}

private theorem advances_number (d : Nat) (l : NumericLiteral) (hr : r.Stops isJoining)
    (last : Text) :
    language.Advances last (Place.code d).state l.text [⟨.number, l.text⟩] l.text
      (Place.code d).state r := by
  have htake : number.Takes l.text r := l.takes_number hr
  obtain ⟨c, cs, htext, hc⟩ := l.text_start
  rw [htext] at htake ⊢
  have hcode : codeMarks.contains c = false ∧ c ≠ '/' ∧ isWordStart c = false := by
    rcases hc with hd | rfl
    · refine ⟨contains_eq_false (f := fun c => !c.isDigit) rfl (by rw [hd]; rfl), ?_,
        isWordStart_of_isDigit hd⟩
      rintro rfl
      contradiction
    · decide
  obtain ⟨hmark, hslash, hword⟩ := hcode
  apply advances_plain d hmark
  rw [plain?_of_not_word (r := cs ++ r) rfl hslash hword, Scanner.token?_of_takes rfl htake]
  rfl

/-- A literal at the start of a line is the first token, and the rest of the line is read as if it
stood alone. -/
theorem numericLiteral_read (l : NumericLiteral) (hr : r.Stops isJoining) :
    language.tokenizeLine (l.text ++ r) language.initial =
      ⟨⟨.number, l.text⟩ :: (language.tokenizeLine r language.initial).tokens,
        (language.tokenizeLine r language.initial).outbound⟩ := by
  have hbegin : language.beginLine language.initial = (Place.code 0).state := rfl
  have hnumber : language.Advances [] _ l.text _ _ _ r := advances_number 0 l hr []
  have hrest : language.lex l.text r (Place.code 0).state =
      language.lex [] r (Place.code 0).state := lex_last l.text_ne_point (by decide) r _
  rw [Language.Advances, hrest] at hnumber
  rw [Language.tokenizeLine, hbegin, hnumber]
  rfl

/-- A point in front of digits is no operator, and a sign in the exponent is none either. -/
theorem numericLiteral_read_fraction :
    let l : NumericLiteral :=
      ⟨.fraction ".5".toList "e-3".toList ⟨['5'], by decide, rfl⟩
        (.inr ⟨'e', ['-'], ['3'], by decide, by decide, by decide, rfl⟩), true⟩
    let r : Text := "-x".toList
    l.text = ".5e-3n".toList ∧ r.Stops isJoining ∧
      (language.tokenizeLine (l.text ++ r) language.initial).tokens =
        [⟨.number, ".5e-3n".toList⟩, ⟨.operator, ['-']⟩, ⟨.identifier, ['x']⟩] := by
  intro l r
  have hr : r.Stops isJoining := Text.stops_cons.mpr rfl
  have hrest : (language.tokenizeLine r language.initial).tokens =
      [⟨.operator, ['-']⟩, ⟨.identifier, ['x']⟩] := by decide +kernel
  refine ⟨rfl, hr, ?_⟩
  rw [numericLiteral_read l hr, hrest]
  rfl

end Highlight.JavaScript
