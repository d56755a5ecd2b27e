import Highlight.Proofs.Json.Quoted
import Highlight.Proofs.Lexeme.Comment
import Highlight.Proofs.Lexeme.NumericLiteral
/-! # Reading lexical elements

Each lexical element is read by the rule that is meant for it: the rules before that one do not
match at its first character, and its own match ends where the element does. Only a number and a
literal name look at what follows.
-/
namespace Highlight.Json

open Lexeme Pattern

/-- The characters at which a string, a comment or a bracket can begin. -/
def openers : List Char :=
  [Text.doubleQuote, Text.singleQuote, '/', '{', '}', '[', ']', '(', ')']

variable {s : Scanner} {st : State} {c : Char} {last r : Text}

private theorem openString?_eq_none (hs : s.rest = c :: r) (h : isQuote c = false) (st : State) :
    openString? s st = none := by
  have hquote : quote s.rest = none := by
    rw [hs]
    exact one_eq_none (Text.stops_cons.mpr h)
  rw [openString?, Scanner.token?_eq_none hquote]
  rfl

private theorem openComment?_eq_none (hs : s.rest = c :: r) (h : c ≠ '/') (st : State) :
    openComment? s st = none := by
  have htext : s.tokenText? .comment blockOpen = none :=
    Scanner.tokenText?_eq_none hs h .comment ['*']
  rw [openComment?, htext]
  rfl

private theorem bracket?_eq_none (hs : s.rest = c :: r) (h : BracketKind.of? c = none)
    (st : State) : bracket? s st = none := by
  simp [bracket?, hs, h]

private theorem bracket?_eq_some {kind : BracketKind} {opens : Bool} (hs : s.rest = c :: r)
    (h : BracketKind.of? c = some (kind, opens)) (st : State) :
    bracket? s st = some ((s.advance 1).emit .bracket, st.passBracket kind opens) := by
  have hone : s.acceptOne? = some (s.advance 1) := by
    simp [Scanner.acceptOne?, Scanner.accept?, hs, Pattern.one]
  simp [bracket?, hs, h, hone]

private theorem of?_eq_none (h : openers.contains c = false) : BracketKind.of? c = none := by
  unfold BracketKind.of?
  split
  all_goals first | rfl | contradiction

theorem scanCode_of_not_opener (hs : s.rest = c :: r) (h : openers.contains c = false)
    (st : State) : scanCode s st =
      ((valueKeyword? s).map (·, st) <|> (s.token? .identifier identifier).map (·, st)
        <|> (s.token? .number signedNumber).map (·, st) <|> colon? s st <|> comma? s st
        <|> (s.token? .whitespace blanks).map (·, st)).getD (s, st) := by
  have hne : c ≠ Text.doubleQuote ∧ c ≠ Text.singleQuote ∧ c ≠ '/' := by
    simp only [openers, List.contains_cons, Bool.or_eq_false_iff, beq_eq_false_iff_ne] at h
    exact ⟨h.1, h.2.1, h.2.2.1⟩
  have hquote : isQuote c = false := by simp [isQuote, hne]
  have hcomment : s.token? .comment lineComment = none :=
    Scanner.token?_eq_none (hs ▸ lineComment_eq_none hne.2.2 r) .comment
  rw [scanCode, openString?_eq_none hs hquote, openComment?_eq_none hs hne.2.2, hcomment,
    bracket?_eq_none hs (of?_eq_none h)]
  rfl

private theorem scanCode_of_not_word (hs : s.rest = c :: r) (h : openers.contains c = false)
    (hword : isWordStart c = false) (st : State) :
    scanCode s st =
      ((s.token? .number signedNumber).map (·, st) <|> colon? s st <|> comma? s st
        <|> (s.token? .whitespace blanks).map (·, st)).getD (s, st) := by
  have hidentifier : identifier s.rest = none := hs ▸ identifier_eq_none hword r
  have hkeyword : valueKeyword? s = none := by
    simp [valueKeyword?, Scanner.peek?, hidentifier]
  rw [scanCode_of_not_opener hs h, hkeyword, Scanner.token?_eq_none hidentifier]
  rfl

private theorem scanCode_of_not_number (hs : s.rest = c :: r) (h : openers.contains c = false)
    (hword : isWordStart c = false) (hdigit : c.isDigit = false)
    (hmark : ['+', '-', '.'].contains c = false) (st : State) : scanCode s st =
      (colon? s st <|> comma? s st
        <|> (s.token? .whitespace blanks).map (·, st)).getD (s, st) := by
  have hnumber : signedNumber s.rest = none := hs ▸ signedNumber_eq_none hdigit hmark
  rw [scanCode_of_not_word hs h hword, Scanner.token?_eq_none hnumber]
  rfl

theorem advances_code {st' : State} {kind : TokenKind} {t : Text} (hst : st.BetweenElements)
    (hne : t ≠ []) (h : scanCode (.resume last (t ++ r)) st =
      (((Scanner.resume last (t ++ r)).advance t.length).emit kind, st')) :
    language.Advances last st t [⟨kind, t⟩] t st' r := by
  apply Language.advances_token hne
  change scan _ _ = _
  rw [scan_between hst, h]

theorem advances_bracket {kind : BracketKind} {opens : Bool} (hst : st.BetweenElements)
    (hquote : isQuote c = false) (hslash : c ≠ '/') (h : BracketKind.of? c = some (kind, opens)) :
    language.Advances last st [c] [⟨.bracket, [c]⟩] [c] (st.passBracket kind opens) r := by
  apply advances_code hst (by simp)
  have hs : (Scanner.resume last ([c] ++ r)).rest = c :: r := rfl
  have hcomment := Scanner.token?_eq_none (hs ▸ lineComment_eq_none hslash r) .comment
  rw [scanCode, openString?_eq_none hs hquote, openComment?_eq_none hs hslash, hcomment,
    bracket?_eq_some hs h]
  rfl

theorem advances_nameSeparator (hst : st.BetweenElements) :
    language.Advances last st [':'] [⟨.assignment, [':']⟩] [':'] { st with inObjectKey := false }
      r := by
  apply advances_code hst (by simp)
  rw [scanCode_of_not_number (c := ':') rfl rfl rfl rfl rfl, colon?,
    Scanner.tokenChar?_eq_some (r := r) rfl]
  rfl

theorem advances_valueSeparator (hst : st.BetweenElements) :
    language.Advances last st [','] [⟨.separator, [',']⟩] [',']
      { st with inObjectKey := st.inObjectKey || st.inObject } r := by
  apply advances_code hst (by simp)
  rw [scanCode_of_not_number (c := ',') rfl rfl rfl rfl rfl, colon?,
    Scanner.tokenChar?_eq_none (r := r) rfl (by decide), comma?,
    Scanner.tokenChar?_eq_some (r := r) rfl]
  rfl

theorem advances_blanks (hst : st.BetweenElements) {gap : List Blank} (hne : gap ≠ [])
    (hr : r.Stops Text.isBlank) : language.Advances last st (blankText gap)
      [⟨.whitespace, blankText gap⟩] (blankText gap) st r := by
  have htext : blankText gap ≠ [] := by simpa [blankText] using hne
  have hblank : ∀ c ∈ blankText gap, Text.isBlank c = true := by
    intro c hc
    obtain ⟨b, -, rfl⟩ := List.mem_map.mp hc
    cases b <;> rfl
  have htake : blanks.Takes (blankText gap) r := takes_many1 htext hblank hr
  apply advances_code hst htext
  obtain ⟨b, more, rfl⟩ := List.exists_cons_of_ne_nil hne
  have hs : (Scanner.resume last (blankText (b :: more) ++ r)).rest =
      b.char :: (blankText more ++ r) := rfl
  have hcode : openers.contains b.char = false ∧ isWordStart b.char = false ∧
      b.char.isDigit = false ∧ ['+', '-', '.'].contains b.char = false ∧ b.char ≠ ':' ∧
      b.char ≠ ',' := by
    cases b <;> decide
  obtain ⟨hopener, hword, hdigit, hmark, hcolon, hcomma⟩ := hcode
  rw [scanCode_of_not_number hs hopener hword hdigit hmark, colon?,
    Scanner.tokenChar?_eq_none hs hcolon, comma?, Scanner.tokenChar?_eq_none hs hcomma,
    Scanner.token?_of_takes rfl htake]
  rfl

theorem advances_number {t : Text} (hst : st.BetweenElements) (hne : t ≠ [])
    (htake : signedNumber.Takes t r) :
    language.Advances last st t [⟨.number, t⟩] t st r := by
  obtain ⟨c, cs, rfl⟩ := List.exists_cons_of_ne_nil hne
  have hcode : openers.contains c = false ∧ isWordStart c = false := by
    rcases signedNumber_start htake with hd | hmark
    · exact ⟨contains_eq_false (f := fun c => !c.isDigit) rfl (by rw [hd]; rfl),
        isWordStart_of_isDigit hd⟩
    · have hmarks : c = '+' ∨ c = '-' ∨ c = '.' := by simpa using hmark
      rcases hmarks with rfl | rfl | rfl <;> decide
  apply advances_code hst hne
  rw [scanCode_of_not_word (r := cs ++ r) rfl hcode.1 hcode.2, Scanner.token?_of_takes rfl htake]
  rfl

/-- A number of the standard without its sign, among the literals. -/
def Numeral.literal (n : Numeral) : NumericLiteral where
  magnitude := .decimal n.whole n.frac n.exp n.isWhole (n.isFraction.imp_right (·.isPlaces))
    n.isExponent
  big := false

private theorem Numeral.text_literal (n : Numeral) : n.sign ++ n.literal.text = n.text := by
  simp [text, literal, NumericLiteral.text, Magnitude.text, suffix]

private theorem Numeral.text_start (n : Numeral) :
    ∃ c cs, n.text = c :: cs ∧ (c.isDigit = true ∨ c = '-') := by
  cases hnegative : n.negative with
  | true =>
    exact ⟨'-', n.whole ++ (n.frac ++ n.exp), by simp [text, sign, hnegative], .inr rfl⟩
  | false =>
    obtain ⟨d, ds, hwhole, hd⟩ := n.isWhole.1.head
    exact ⟨d, ds ++ (n.frac ++ n.exp), by simp [text, sign, hnegative, hwhole], .inl hd⟩

theorem Numeral.advances (n : Numeral) (hst : st.BetweenElements) (hr : r.Stops isJoining) :
    language.Advances last st n.text [⟨.number, n.text⟩] n.text st r := by
  have hsign : IsSign n.sign := by
    unfold sign
    split
    · exact .inr (.inr rfl)
    · exact .inl rfl
  have htake := n.literal.takes_signed hsign (.inr rfl) hr
  rw [n.text_literal] at htake
  obtain ⟨c, cs, htext, -⟩ := n.text_start
  exact advances_number hst (by simp [htext]) htake

private theorem LiteralName.text_start (l : LiteralName) :
    ∃ c cs, l.text = c :: cs ∧ openers.contains c = false ∧ isWordStart c = true ∧
      cs.all isWordChar = true ∧ l.text ∈ valueKeywords := by
  have hknown : l.text = "true".toList ∨ l.text = "false".toList ∨ l.text = "null".toList := by
    simpa [literalNames] using l.known
  rcases hknown with h | h | h
  · exact h ▸ ⟨'t', _, rfl, by decide⟩
  · exact h ▸ ⟨'f', _, rfl, by decide⟩
  · exact h ▸ ⟨'n', _, rfl, by decide⟩

theorem LiteralName.advances (l : LiteralName) (hst : st.BetweenElements) (hlast : last ≠ ['.'])
    (hr : r.Stops isJoining) :
    language.Advances last st l.text [⟨.valueKeyword, l.text⟩] l.text st r := by
  obtain ⟨c, cs, htext, hopener, hstart, hrest, hlisted⟩ := l.text_start
  have htake : identifier (l.text ++ r) = some l.text.length := by
    rw [htext]
    exact takes_identifier hstart (List.all_eq_true.mp hrest)
      (hr.mono fun d hd => (isJoining_eq_false.mp hd).1)
  have hkeyword : valueKeyword? (.resume last (l.text ++ r)) =
      some (((Scanner.resume last (l.text ++ r)).advance l.text.length).emit .valueKeyword) := by
    simp [valueKeyword?, Scanner.peek?, Scanner.resume, hlast, htake, hlisted]
  have hs : (Scanner.resume last (l.text ++ r)).rest = c :: (cs ++ r) := by
    rw [htext]
    rfl
  apply advances_code hst (by simp [htext])
  rw [scanCode_of_not_opener hs hopener, hkeyword]
  rfl

theorem Element.text_start (e : Element) :
    ∃ c cs, e.text = c :: cs ∧ Text.isBlank c = false ∧ c ≠ '.' := by
  have hword : ∀ {c cs}, e.text = c :: cs → isWordChar c = true →
      ∃ c cs, e.text = c :: cs ∧ Text.isBlank c = false ∧ c ≠ '.' := by
    intro c cs htext hc
    refine ⟨c, cs, htext, isBlank_of_isWordChar hc, ?_⟩
    rintro rfl
    contradiction
  cases e with
  | literal name =>
    obtain ⟨c, cs, htext, -, hstart, -⟩ := name.text_start
    exact hword htext (isWordChar_of_isWordStart hstart)
  | number n =>
    obtain ⟨c, cs, htext, hd | rfl⟩ := n.text_start
    · exact hword htext (by simp [isWordChar, Char.isAlphanum, hd])
    · exact ⟨'-', cs, htext, by decide⟩
  | _ => exact ⟨_, _, rfl, by decide⟩

theorem Element.stops_isJoining {e : Element} (h : e.isStructural = true) (r : Text) :
    Text.Stops isJoining (e.text ++ r) := by
  cases e with
  | literal _ | number _ | name _ | string _ => contradiction
  | _ => exact Text.stops_cons.mpr rfl

end Highlight.Json
