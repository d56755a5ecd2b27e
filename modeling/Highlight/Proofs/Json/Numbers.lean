import Highlight.Proofs.Json.Element
/-! # Reading numbers

Numbers are those of JavaScript with perhaps a sign, but only the decimal notation knows signs. It
reads a literal with the mark of a base behind a sign up to that mark: the zero is a number, and the
rest is a word.
-/
namespace Highlight.Json

open Lexeme Pattern

/-- A literal with perhaps a sign in front. -/
structure SignedLiteral where
  sign : Text
  literal : NumericLiteral
  isSign : IsSign sign

namespace SignedLiteral

def text (l : SignedLiteral) : Text := l.sign ++ l.literal.text

/-- A sign stands in front of decimal notation alone. -/
def SignFits (l : SignedLiteral) : Prop := l.sign = [] ∨ l.literal.magnitude.isMarked = false

/-- What a literal is read as. -/
def tokens (l : SignedLiteral) : List Token :=
  match l.literal.magnitude with
  | .marked _ mark digits _ _ _ =>
    if l.sign = [] then [⟨.number, l.text⟩]
    else [⟨.number, l.sign ++ ['0']⟩, ⟨.identifier, mark :: (digits ++ suffix l.literal.big)⟩]
  | .octal .. | .decimal .. | .fraction .. => [⟨.number, l.text⟩]

private theorem tokens_eq_singleton (l : SignedLiteral) :
    l.tokens = [⟨.number, l.text⟩] ↔ l.SignFits := by
  obtain ⟨sign, ⟨magnitude, big⟩, isSign⟩ := l
  cases magnitude with
  | marked =>
    by_cases hsign : sign = []
    · simp [tokens, SignFits, hsign]
    · simp [tokens, SignFits, hsign, Magnitude.isMarked]
  | octal | decimal | fraction => simp [tokens, SignFits, Magnitude.isMarked]

private theorem text_ne_nil (l : SignedLiteral) : l.text ≠ [] :=
  List.append_ne_nil_of_right_ne_nil _ l.literal.text_ne_nil

end SignedLiteral

variable {st : State} {c mark : Char} {cs digits sign last r : Text}

private theorem advances_identifier (hst : st.BetweenElements)
    (hopener : openers.contains c = false)
    (hstart : isWordStart c = true) (hword : ∀ d ∈ cs, isWordChar d = true)
    (hlisted : c :: cs ∉ valueKeywords) (hr : r.Stops isWordChar) :
    language.Advances last st (c :: cs) [⟨.identifier, c :: cs⟩] (c :: cs) st r := by
  have htake : identifier.Takes (c :: cs) r := takes_identifier hstart hword hr
  have hkeyword : valueKeyword? (.resume last (c :: cs ++ r)) = none := by
    rw [valueKeyword?, Scanner.peek?_of_takes rfl htake]
    simp [hlisted]
  apply advances_code hst (by simp)
  rw [scanCode_of_not_opener (r := cs ++ r) rfl hopener, hkeyword,
    Scanner.token?_of_takes rfl htake]
  rfl

private theorem mark_starts_word {b : Base} (h : mark ∈ b.marks) (t : Text) :
    openers.contains mark = false ∧ isWordStart mark = true ∧ mark :: t ∉ valueKeywords := by
  have hopeners : b.marks.all (!openers.contains ·) = true := by
    cases b <;> rfl
  have hstarts : b.marks.all isWordStart = true := by
    cases b <;> rfl
  have hlisted : b.marks.all (fun c => valueKeywords.all (·.head? != some c)) = true := by
    cases b <;> rfl
  refine ⟨?_, List.all_eq_true.mp hstarts mark h, fun hmem => ?_⟩
  · simpa only [Bool.not_eq_true'] using List.all_eq_true.mp hopeners mark h
  · simpa using List.all_eq_true.mp (List.all_eq_true.mp hlisted mark h) _ hmem

private theorem advances_signed_marked (hst : st.BetweenElements)
    (hsign : sign = ['+'] ∨ sign = ['-'])
    {b : Base} (hmark : mark ∈ b.marks) (hdigits : ∀ d ∈ digits, b.isDigit d = true) (big : Bool)
    (hr : r.Stops isWordChar) :
    language.Advances last st (sign ++ ['0'] ++ mark :: (digits ++ suffix big))
      [⟨.number, sign ++ ['0']⟩, ⟨.identifier, mark :: (digits ++ suffix big)⟩]
      (mark :: (digits ++ suffix big)) st r := by
  have hdigit : IsDigits ['0'] := by decide
  have hzero : decimalNumber.Takes ['0'] (mark :: (digits ++ suffix big) ++ r) :=
    takes_decimal hdigit (.inl rfl) (.inl rfl) false
      (Text.stops_cons.mpr (Base.not_isDecimalChar_of_mark hmark))
  have hnumber : language.Advances last st (sign ++ ['0']) _ _ st _ :=
    advances_number hst (by simp) (takes_behind_sign hsign hzero)
  obtain ⟨hopener, hstart, hlisted⟩ := mark_starts_word hmark (digits ++ suffix big)
  have hword : ∀ c ∈ digits ++ suffix big, isWordChar c = true := by
    intro c hc
    rcases List.mem_append.mp hc with hc | hc
    · exact Base.isWordChar_of_isDigit (hdigits c hc)
    · cases big with
      | false => contradiction
      | true =>
        obtain rfl := List.mem_singleton.mp hc
        rfl
  exact hnumber.trans (advances_identifier hst hopener hstart hword hlisted hr)

/-- A literal in front of something that could not go on with it. -/
theorem SignedLiteral.advances (l : SignedLiteral) (hst : st.BetweenElements)
    (hr : r.Stops isJoining) (last : Text) :
    ∃ last', language.Advances last st l.text l.tokens last' st r := by
  by_cases hfits : l.SignFits
  · rw [l.tokens_eq_singleton.mpr hfits]
    exact ⟨_, advances_number hst l.text_ne_nil (l.literal.takes_signed l.isSign hfits hr)⟩
  · obtain ⟨sign, ⟨magnitude, big⟩, isSign⟩ := l
    obtain ⟨hne, hmarked⟩ := not_or.mp hfits
    cases magnitude with
    | marked b mark digits hmark _ hdigits =>
      have hword : r.Stops isWordChar := hr.mono fun c hc => (isJoining_eq_false.mp hc).1
      have hsplit : language.Advances last st _ _ _ st r :=
        advances_signed_marked hst (isSign.resolve_left hne) hmark hdigits big hword
      refine ⟨mark :: (digits ++ suffix big), ?_⟩
      simpa [text, tokens, NumericLiteral.text, Magnitude.text, hne] using hsplit
    | octal | decimal | fraction => exact absurd rfl hmarked

/-- A literal alone on a line is one number exactly if its sign fits; else it is a number and a
word. -/
theorem signedLiteral_read (l : SignedLiteral) :
    language.tokenizeLine l.text language.initial = ⟨l.tokens, language.initial⟩ ∧
      (l.tokens = [⟨.number, l.text⟩] ↔ l.SignFits) := by
  have hbegin : language.beginLine language.initial = language.initial := rfl
  have hbetween : language.initial.BetweenElements := ⟨rfl, rfl, rfl⟩
  obtain ⟨last, hadvances⟩ := l.advances hbetween (Text.stops_nil _) []
  constructor
  · rw [Language.tokenizeLine, hbegin, hadvances.finish]
    rfl
  · exact l.tokens_eq_singleton

def negativeHexadecimal : SignedLiteral where
  sign := ['-']
  literal :=
    { magnitude := .marked .hexadecimal 'x' "1F".toList (by decide) (by decide)
        (List.all_eq_true.mp rfl)
      big := false }
  isSign := .inr (.inr rfl)

theorem negativeHexadecimal_misread :
    negativeHexadecimal.text = "-0x1F".toList ∧
      (language.tokenizeLine negativeHexadecimal.text language.initial).tokens =
        [⟨.number, "-0".toList⟩, ⟨.identifier, "x1F".toList⟩] ∧
      (language.tokenizeLine negativeHexadecimal.text language.initial).tokens ≠
        [⟨.number, negativeHexadecimal.text⟩] := by
  have htokens : (language.tokenizeLine negativeHexadecimal.text language.initial).tokens =
      [⟨.number, "-0".toList⟩, ⟨.identifier, "x1F".toList⟩] := by decide +kernel
  exact ⟨rfl, htokens, by simp [htokens]⟩

end Highlight.Json
