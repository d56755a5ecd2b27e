import Highlight.Proofs.Language.Advance
import Highlight.Proofs.Language.Invariant
import Highlight.Proofs.Language.Json
import Highlight.Proofs.Lexeme.Escape
/-! # JSON between two lines

The next string can be the key of a member only where the innermost bracket is that of an object,
whatever brackets were closed that were never opened or are of another kind. A string is open
exactly behind a newline escape, and then in quotes and in no comment.
-/
namespace Highlight.Json

open Lexeme Scanner

/-- What a step may do to the state, and the rest of the line behind the step. -/
inductive Change (st : State) : Text → State → Prop
  | same (rest : Text) : Change st rest st
  | comment (rest : Text) (goesOn : Bool) (inside : st.inBlockComment = true) :
      Change st rest { st with inBlockComment := goesOn }
  | escape {rest : Text} {endsLine : Bool} (inside : st.stringOpener ≠ none)
      (atEnd : endsLine = true → rest = []) :
      Change st rest { st with newlineEscape := st.newlineEscape || endsLine }
  | closeString (rest : Text) : Change st rest { st with stringOpener := none }
  | openString (rest : Text) {quote : Char} (hquote : isQuote quote = true)
      (outside : st.inBlockComment = false) :
      Change st rest { st with stringOpener := some quote }
  | openComment (rest : Text) (outside : st.stringOpener = none) :
      Change st rest { st with inBlockComment := true }
  | bracket (rest : Text) (kind : BracketKind) (opens : Bool) :
      Change st rest (st.passBracket kind opens)
  | colon (rest : Text) : Change st rest { st with inObjectKey := false }
  | comma (rest : Text) : Change st rest { st with inObjectKey := st.inObjectKey || st.inObject }

section Changes

variable {st : State} {s : Scanner}

private theorem scanString_change {quote : Char} (hopener : st.stringOpener = some quote) :
    Change st (scanString quote s st).1.rest (scanString quote s st).2 := by
  rw [scanString]
  cases hescape : escape? s with
  | some next =>
    obtain ⟨t, endsLine⟩ := next
    refine .escape (by simp [hopener]) ?_
    rintro rfl
    exact escape?_endsLine hescape
  | none =>
    cases s.tokenChar? st.stringKind quote with
    | some t => exact .closeString _
    | none => exact .same _

private theorem openString_change (hcomment : st.inBlockComment = false) :
    Ensures (Change st) (openString? s st) := by
  intro next hnext
  obtain ⟨t, ht, rfl⟩ := Option.map_eq_some_iff.mp hnext
  obtain ⟨quote, hlast, hquote⟩ := lastMatch_of_one ht
  rw [hlast]
  exact .openString _ hquote hcomment

private theorem bracket_change : Ensures (Change st) (bracket? s st) := by
  intro next hnext
  obtain ⟨bracket, -, hnext⟩ := Option.bind_eq_some_iff.mp hnext
  obtain ⟨t, -, hnext⟩ := Option.bind_eq_some_iff.mp hnext
  obtain rfl := Option.some.inj hnext
  exact .bracket _ bracket.1 bracket.2

private theorem scanCode_change (hcomment : st.inBlockComment = false)
    (hopener : st.stringOpener = none) : Change st (scanCode s st).1.rest (scanCode s st).2 := by
  have hsame : ∀ read? : Option Scanner, Ensures (Change st) (read?.map (·, st)) := .map .same
  have hblock : Ensures (Change st) (openComment? s st) := .map (.openComment · hopener) _
  have hcolon : Ensures (Change st) (colon? s st) := .map .colon _
  have hcomma : Ensures (Change st) (comma? s st) := .map .comma _
  have hsymbol := hcolon.orElse (hcomma.orElse (hsame (s.token? .whitespace blanks)))
  have hnumber := (hsame (s.token? .number signedNumber)).orElse hsymbol
  have hword := (hsame (valueKeyword? s)).orElse
    ((hsame (s.token? .identifier identifier)).orElse hnumber)
  have hbracket : Ensures (Change st) (bracket? s st) := bracket_change
  have hplain := (hsame (s.token? .comment lineComment)).orElse (hbracket.orElse hword)
  exact ((openString_change hcomment).orElse (hblock.orElse hplain)).getD (.same _)

private theorem scan_change (s : Scanner) (st : State) :
    Change st (scan s st).1.rest (scan s st).2 := by
  by_cases hcomment : st.inBlockComment = true
  · rw [scan, if_pos hcomment]
    exact .comment _ _ hcomment
  · rw [scan, if_neg hcomment]
    have hcomment : st.inBlockComment = false := by simpa using hcomment
    cases hopener : st.stringOpener with
    | some quote => exact scanString_change hopener
    | none => exact scanCode_change hcomment hopener

end Changes

namespace State

/-- What is open is a string in quotes or a comment, and keys are in objects. -/
structure Coherent (st : State) : Prop where
  opener : ∀ quote ∈ st.stringOpener, isQuote quote = true
  comment : st.inBlockComment = true → st.stringOpener = none
  key : st.inObjectKey = true → st.inObject = true

/-- A coherent state in front of the rest of a line. -/
structure Within (rest : Text) (st : State) : Prop extends st.Coherent where
  newline : st.newlineEscape = true → rest = [] ∧ st.stringOpener ≠ none

/-- A coherent state in which a string is open exactly behind a newline escape. -/
structure BetweenLines (st : State) : Prop extends st.Coherent where
  escaped : st.stringOpener.isSome = st.newlineEscape

end State

section Invariant

variable {st st' : State} {rest : Text}

private theorem Change.coherent (hchange : Change st rest st') (h : st.Coherent) :
    st'.Coherent := by
  cases hchange with
  | same => exact h
  | comment goesOn inside => exact ⟨h.opener, fun _ => h.comment inside, h.key⟩
  | escape inside atEnd => exact ⟨h.opener, h.comment, h.key⟩
  | closeString => exact ⟨by simp, fun _ => rfl, h.key⟩
  | openString hquote outside => exact ⟨by simpa using hquote, by simp [outside], h.key⟩
  | openComment outside => exact ⟨h.opener, fun _ => outside, h.key⟩
  | bracket kind opens =>
    -- The flag is set anew from the brackets that are left, whichever was closed.
    exact ⟨h.opener, h.comment, fun hkey => hkey⟩
  | colon => exact ⟨h.opener, h.comment, by simp⟩
  | comma =>
    refine ⟨h.opener, h.comment, ?_⟩
    intro hset
    rcases Bool.or_eq_true_iff.mp hset with hkey | hobject
    · exact h.key hkey
    · exact hobject

private theorem Change.newline (hchange : Change st rest st') (hline : st.newlineEscape = false)
    (hnewline : st'.newlineEscape = true) : rest = [] ∧ st'.stringOpener ≠ none := by
  cases hchange with
  | escape inside atEnd => exact ⟨atEnd (by simpa [hline] using hnewline), inside⟩
  | _ => exact absurd (hline.symm.trans hnewline) Bool.false_ne_true

private theorem State.Within.newlineEscape_eq_false (h : st.Within rest) (hrest : rest ≠ []) :
    st.newlineEscape = false := by
  cases hnewline : st.newlineEscape with
  | false => rfl
  | true => exact absurd (h.newline hnewline).1 hrest

private theorem State.Within.endLine (h : State.Within [] st) : (endLine st).BetweenLines := by
  rw [Json.endLine]
  split
  · rename_i hnewline
    refine ⟨h.toCoherent, ?_⟩
    rw [hnewline, Option.isSome_iff_ne_none]
    exact (h.newline hnewline).2
  · rename_i hnewline
    exact ⟨⟨by simp, fun _ => rfl, h.key⟩, by simpa using hnewline⟩

private theorem tokenizeLine_betweenLines (h : st.BetweenLines) (line : Text) :
    (language.tokenizeLine line st).outbound.BetweenLines := by
  have hbegin : State.Within line (language.beginLine st) :=
    ⟨⟨h.opener, h.comment, h.key⟩, fun hnewline => absurd hnewline Bool.false_ne_true⟩
  apply State.Within.endLine
  apply isFaithful.lex_invariant (P := State.Within) _ _ [] line _ hbegin
  · intro s st hrest h
    have hchange := scan_change s st
    exact ⟨hchange.coherent h.toCoherent, hchange.newline (h.newlineEscape_eq_false hrest)⟩
  · intro c cs st h
    have hline := h.newlineEscape_eq_false (List.cons_ne_nil c cs)
    exact ⟨h.toCoherent, fun hnewline => absurd (hline.symm.trans hnewline) Bool.false_ne_true⟩

private theorem betweenLines_initial : State.BetweenLines {} := ⟨⟨by simp, by simp, by simp⟩, rfl⟩

theorem behind_betweenLines (lines : List Text) :
    (language.tokenizer.behind language.initial lines).BetweenLines :=
  Tokenizer.behind_invariant (P := State.BetweenLines)
    (fun line _ h => tokenizeLine_betweenLines h line) betweenLines_initial lines

end Invariant

/-- Behind any lines the next string is a key only if the innermost bracket is that of an object. A
string is open exactly behind a newline escape, in quotes of either kind, and in no comment. -/
theorem keys_between_lines (lines : List Text) :
    let st := language.tokenizer.behind language.initial lines
    (st.inObjectKey = true → st.innermost? = some .object) ∧
    (∀ quote ∈ st.stringOpener, quote = Text.doubleQuote ∨ quote = Text.singleQuote) ∧
    st.stringOpener.isSome = st.newlineEscape ∧
    (st.inBlockComment = true → st.stringOpener = none) := by
  intro st
  have h : st.BetweenLines := behind_betweenLines lines
  refine ⟨?_, ?_, h.escaped, h.comment⟩
  · intro hkey
    exact beq_iff_eq.mp (h.key hkey)
  · intro quote hquote
    exact isQuote_iff.mp (h.opener quote hquote)

/-- A brace that closes a square bracket, a string that goes on in the next line, and a comment
behind brackets that were never opened. -/
theorem keys_between_lines_stray :
    let keyed := language.tokenizer.behind language.initial ["\x7b[\x7d".toList]
    let escaped := language.tokenizer.behind language.initial [['['], "'a\x5c".toList]
    let commented := language.tokenizer.behind language.initial ["]\x7d /* '".toList]
    (keyed.inObjectKey = true ∧ keyed.innermost? = some .object) ∧
    (Text.singleQuote ∈ escaped.stringOpener ∧ (Text.singleQuote = Text.doubleQuote ∨
      Text.singleQuote = Text.singleQuote)) ∧
    (commented.inBlockComment = true ∧ commented.stringOpener = none) := by
  intro keyed escaped commented
  have hkey : keyed.inObjectKey = true := by decide +kernel
  have hopener : Text.singleQuote ∈ escaped.stringOpener := by decide +kernel
  have hcomment : commented.inBlockComment = true := by decide +kernel
  obtain ⟨hobject, -⟩ := keys_between_lines ["\x7b[\x7d".toList]
  obtain ⟨-, hquote, -⟩ := keys_between_lines [['['], "'a\x5c".toList]
  obtain ⟨-, -, -, hclosed⟩ := keys_between_lines ["]\x7d /* '".toList]
  exact ⟨⟨hkey, hobject hkey⟩, ⟨hopener, hquote Text.singleQuote hopener⟩, hcomment,
    hclosed hcomment⟩

end Highlight.Json
