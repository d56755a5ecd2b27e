import Highlight.Proofs.Language.Invariant
import Highlight.Proofs.Language.JavaScript
import Highlight.Proofs.Lexeme.Escape
/-! # Open strings

The flags of a level hang together: at the innermost level there is code, a string in quotes or a
template, and each level around it is a template whose placeholder is being read. A newline escape
is the last thing of its line and stands in a string; and between two lines it is all that holds a
string in quotes open.
-/
namespace Highlight.JavaScript

open Lexeme Scanner

namespace StringContext

/-- The innermost level is in code, in a string in quotes or in the text of a template. -/
inductive Innermost : StringContext → Prop
  | code : Innermost {}
  | quoted {q : Char} (isQuote : isQuote q = true) : Innermost ⟨some q, false, false⟩
  | template : Innermost ⟨some Text.backquote, true, false⟩

/-- A template that waits for the end of its placeholder. -/
def suspended : StringContext := ⟨some Text.backquote, true, true⟩

variable {c : StringContext}

private theorem Innermost.inPlaceholder (h : c.Innermost) : c.inPlaceholder = false := by
  cases h <;> rfl

private theorem Innermost.eq_code (h : c.Innermost) (hopener : c.opener = none) : c = {} := by
  cases h with
  | code => rfl
  | quoted isQuote => contradiction
  | template => contradiction

private theorem Innermost.eq_template (h : c.Innermost) (htemplate : c.inTemplate = true) :
    c = ⟨some Text.backquote, true, false⟩ := by
  cases h with
  | code => contradiction
  | quoted isQuote => contradiction
  | template => rfl

theorem Innermost.eq_quoted (h : c.Innermost) {quote : Char} (hopener : c.opener = some quote)
    (hquote : isQuote quote = true) : c = ⟨some quote, false, false⟩ := by
  cases h with
  | code => contradiction
  | quoted isQuote => rw [← hopener]
  | template =>
    obtain rfl := Option.some.inj hopener
    contradiction

private theorem Innermost.opener_cases (h : c.Innermost) {quote : Char}
    (hquote : quote ∈ c.opener) :
    quote = Text.doubleQuote ∨ quote = Text.singleQuote ∨ quote = Text.backquote := by
  cases h with
  | code => contradiction
  | quoted isQuote =>
    obtain rfl := Option.some.inj hquote
    rcases isQuote_iff.mp isQuote with hdouble | hsingle
    · exact .inl hdouble
    · exact .inr (.inl hsingle)
  | template => exact .inr (.inr (Option.some.inj hquote).symm)

private theorem Innermost.opener_eq_backquote (h : c.Innermost) :
    c.opener = some Text.backquote ↔ c.inTemplate = true := by
  cases h with
  | code => simp
  | quoted isQuote => rcases isQuote_iff.mp isQuote with rfl | rfl <;> decide
  | template => simp

private theorem Innermost.close (h : c.Innermost) :
    { c with opener := none, inTemplate := false } = ({} : StringContext) := by
  cases h <;> rfl

private theorem Innermost.endLine (h : c.Innermost) (htemplate : c.inTemplate = false) :
    { c with opener := none } = ({} : StringContext) := by
  cases h with
  | code => rfl
  | quoted isQuote => rfl
  | template => contradiction

end StringContext

namespace State

structure Coherent (st : State) : Prop where
  current : st.current.Innermost
  outer : ∀ context ∈ st.outer, context = .suspended
  comment : st.inBlockComment = true → st.current = {}

/-- A coherent state in front of the rest of a line. -/
structure Within (rest : Text) (st : State) : Prop extends st.Coherent where
  newline : st.newlineEscape = true → rest = [] ∧ st.current ≠ {}

/-- A coherent state in which strings in quotes are closed, unless the line escaped its end. -/
structure BetweenLines (st : State) : Prop extends st.Coherent where
  newline : st.newlineEscape = true → st.current ≠ {}
  quoted : st.current ≠ {} → st.current.inTemplate = true ∨ st.newlineEscape = true

variable {st : State}

private theorem Coherent.within (h : st.Coherent) (hline : st.newlineEscape = false) (rest : Text) :
    Within rest st := by
  refine ⟨h, ?_⟩
  intro hnewline
  rw [hline] at hnewline
  contradiction

theorem betweenLines_initial : BetweenLines {} :=
  ⟨⟨.code, by simp, fun _ => rfl⟩, by simp, by simp⟩

theorem Coherent.openString?_eq (h : st.Coherent) : st.openString? = st.current.opener := by
  rw [openString?, h.current.inPlaceholder]
  rfl

end State

section Steps

variable {st : State} {quote : Char} {s : Scanner}

private theorem openPlaceholder_within (h : st.Coherent) (hline : st.newlineEscape = false) :
    Ensures State.Within (openPlaceholder? s st) := by
  by_cases htemplate : st.current.inTemplate = true
  · rw [openPlaceholder?, if_pos htemplate]
    have houter : ∀ context ∈ st.enterPlaceholder.outer, context = .suspended := by
      intro context hmem
      rcases List.mem_cons.mp hmem with rfl | hmem
      · rw [h.current.eq_template htemplate]
        rfl
      · exact h.outer context hmem
    have hcoherent : st.enterPlaceholder.Coherent := ⟨.code, houter, fun _ => rfl⟩
    exact .map (hcoherent.within hline) _
  · rw [openPlaceholder?, if_neg htemplate]
    exact .none _

private theorem closeString_within (h : st.Coherent) (hline : st.newlineEscape = false) :
    Ensures State.Within (closeString? quote s st) := by
  rw [closeString?, h.current.close]
  have hcoherent : State.Coherent { st with current := {} } := ⟨.code, h.outer, fun _ => rfl⟩
  exact .map (hcoherent.within hline) _

private theorem scanString_within (h : st.Coherent) (hline : st.newlineEscape = false)
    (hopen : st.current.opener = some quote) :
    (scanString quote s st).2.Within (scanString quote s st).1.rest := by
  rw [scanString]
  cases hescape : escape? s with
  | none =>
    exact ((openPlaceholder_within h hline).orElse (closeString_within h hline)).getD
      (h.within hline _)
  | some next =>
    obtain ⟨t, endsLine⟩ := next
    refine ⟨⟨h.current, h.outer, h.comment⟩, ?_⟩
    intro hnewline
    obtain rfl : endsLine = true := by simpa [hline] using hnewline
    refine ⟨escape?_endsLine hescape, ?_⟩
    intro hcode
    have hcode : st.current = {} := hcode
    rw [hcode] at hopen
    contradiction

private theorem closePlaceholder_within (h : st.Coherent) (hline : st.newlineEscape = false)
    (hcomment : st.inBlockComment = false) : Ensures State.Within (closePlaceholder? s st) := by
  cases houter : st.outer with
  | nil =>
    have hbelow : st.belowPlaceholder = false := by simp [State.belowPlaceholder, houter]
    rw [closePlaceholder?, hbelow]
    exact .none _
  | cons context outer =>
    have hall := h.outer
    rw [houter] at hall
    obtain rfl : context = .suspended := hall context List.mem_cons_self
    have hbelow : st.belowPlaceholder = true := by
      simp [State.belowPlaceholder, houter, StringContext.suspended]
    have hleave : st.leavePlaceholder =
        { st with current := ⟨some Text.backquote, true, false⟩, outer } := by
      simp [State.leavePlaceholder, houter, StringContext.suspended]
    rw [closePlaceholder?, if_pos hbelow, hleave]
    have hcoherent : State.Coherent
        { st with current := ⟨some Text.backquote, true, false⟩, outer } :=
      ⟨.template, fun context hmem => hall context (List.mem_cons_of_mem _ hmem), by simp [hcomment]⟩
    exact .map (hcoherent.within hline) _

private theorem openString_within (h : st.Coherent) (hline : st.newlineEscape = false)
    (hcomment : st.inBlockComment = false) (hcode : st.current = {}) :
    Ensures State.Within (openString? s st) := by
  intro next hnext
  obtain ⟨t, ht, rfl⟩ := Option.map_eq_some_iff.mp hnext
  obtain ⟨q, hlast, hq⟩ := lastMatch_of_one ht
  have hopened : ({ st.current with opener := t.lastMatch.head? } : StringContext) =
      ⟨some q, false, false⟩ := by rw [hcode, hlast]; rfl
  dsimp only
  rw [hopened]
  have hcoherent : State.Coherent { st with current := ⟨some q, false, false⟩ } :=
    ⟨.quoted hq, h.outer, by simp [hcomment]⟩
  exact hcoherent.within hline _

private theorem scanCode_within (h : st.Coherent) (hline : st.newlineEscape = false)
    (hcomment : st.inBlockComment = false) (hcode : st.current = {}) :
    (scanCode s st).2.Within (scanCode s st).1.rest := by
  have htemplate : Ensures State.Within (openTemplate? s st) := by
    have hcoherent : State.Coherent { st with current := ⟨some Text.backquote, true, false⟩ } :=
      ⟨.template, h.outer, by simp [hcomment]⟩
    rw [openTemplate?, hcode]
    exact .map (hcoherent.within hline) _
  have hblock : Ensures State.Within (openComment? s st) := by
    have hcoherent : State.Coherent { st with inBlockComment := true } :=
      ⟨h.current, h.outer, fun _ => hcode⟩
    exact .map (hcoherent.within hline) _
  have hplain : Ensures State.Within ((plain? s).map (·, st)) := .map (h.within hline) _
  have hstring : Ensures State.Within (openString? s st) := openString_within h hline hcomment hcode
  have hclose : Ensures State.Within (closePlaceholder? s st) :=
    closePlaceholder_within h hline hcomment
  exact (hclose.orElse (htemplate.orElse (hstring.orElse (hblock.orElse hplain)))).getD
    (h.within hline _)

private theorem scan_within (h : st.Coherent) (hline : st.newlineEscape = false) :
    (scan s st).2.Within (scan s st).1.rest := by
  by_cases hcomment : st.inBlockComment = true
  · rw [scan, if_pos hcomment]
    have hcoherent : State.Coherent
        { st with inBlockComment := !(scanComment blockClose s).2 } :=
      ⟨h.current, h.outer, fun _ => h.comment hcomment⟩
    exact hcoherent.within hline _
  · rw [scan, if_neg hcomment, h.openString?_eq]
    have hcomment : st.inBlockComment = false := by simpa using hcomment
    cases hopen : st.current.opener with
    | some quote => exact scanString_within h hline hopen
    | none => exact scanCode_within h hline hcomment (h.current.eq_code hopen)

end Steps

private theorem endLine_newlineEscape (st : State) :
    (endLine st).newlineEscape = st.newlineEscape := by
  rw [endLine]
  split <;> rfl

private theorem endLine_betweenLines {st : State} (h : st.Within []) :
    (endLine st).BetweenLines := by
  by_cases hopen : (st.current.inTemplate || st.newlineEscape) = true
  · rw [endLine, if_pos hopen]
    exact ⟨h.toCoherent, fun hnewline => (h.newline hnewline).2, fun _ => by simpa using hopen⟩
  · rw [endLine, if_neg hopen]
    obtain ⟨htemplate, hline⟩ : st.current.inTemplate = false ∧ st.newlineEscape = false := by
      simpa using hopen
    rw [h.current.endLine htemplate]
    exact ⟨⟨.code, h.outer, fun _ => rfl⟩, by simp [hline], by simp⟩

theorem tokenizeLine_betweenLines {st : State} (h : st.BetweenLines) (line : Text) :
    (language.tokenizeLine line st).outbound.BetweenLines := by
  have hbegin : State.Coherent { st with newlineEscape := false } :=
    ⟨h.current, h.outer, h.comment⟩
  apply endLine_betweenLines
  apply isFaithful.lex_invariant (P := State.Within) _ _ [] line _ (hbegin.within rfl line)
  · intro s st hrest h
    have hline : st.newlineEscape = false := by
      cases hnewline : st.newlineEscape with
      | false => rfl
      | true => exact absurd (h.newline hnewline).1 hrest
    exact scan_within h.toCoherent hline
  · intro c cs st h
    refine ⟨h.toCoherent, ?_⟩
    intro hnewline
    have hnil := (h.newline hnewline).1
    contradiction

private theorem State.BetweenLines.endLine_eq {st : State} (h : st.BetweenLines) :
    endLine st = st := by
  by_cases hopen : (st.current.inTemplate || st.newlineEscape) = true
  · rw [endLine, if_pos hopen]
  · have hcode : st.current = {} := by
      by_cases hcode : st.current = {}
      · exact hcode
      · exact absurd (by simpa using h.quoted hcode) hopen
    rw [endLine, if_neg hopen, hcode, ← hcode]

/-- On an empty line nothing is read, and of the state only a newline escape is not handed on. -/
theorem tokenizeLine_nil_eq_iff {st : State} (h : st.BetweenLines) :
    (language.tokenizeLine [] st).outbound = st ↔ st.newlineEscape = false := by
  rw [language.tokenizeLine_nil]
  constructor
  · intro hsame
    rw [← hsame]
    exact endLine_newlineEscape _
  · intro hline
    have hbegin : language.beginLine st = st := by
      change { st with newlineEscape := false } = st
      rw [← hline]
    rw [hbegin]
    exact h.endLine_eq

theorem behind_betweenLines (lines : List Text) :
    (language.tokenizer.behind {} lines).BetweenLines :=
  Tokenizer.behind_invariant (P := State.BetweenLines)
    (fun line _ h => tokenizeLine_betweenLines h line) State.betweenLines_initial lines

/-- Behind any lines the flags of a state hang together. The innermost level is no suspended
template, and all levels around it are. What is open is a string in either quote or a template, and
a template exactly where the flag says so; a string in quotes is open only by a newline escape, a
newline escape stands only in a string, and a block comment in none. -/
theorem strings_between_lines (lines : List Text) :
    let st := language.tokenizer.behind language.initial lines
    st.current.inPlaceholder = false ∧
    (∀ context ∈ st.outer, context.opener = some Text.backquote ∧ context.inTemplate = true ∧
      context.inPlaceholder = true) ∧
    (∀ quote ∈ st.current.opener, quote = Text.doubleQuote ∨ quote = Text.singleQuote ∨
      quote = Text.backquote) ∧
    (st.current.opener = some Text.backquote ↔ st.current.inTemplate = true) ∧
    (st.current.opener = some Text.doubleQuote ∨ st.current.opener = some Text.singleQuote →
      st.newlineEscape = true) ∧
    (st.newlineEscape = true → st.inString = true) ∧
    (st.inBlockComment = true → st.inString = false) := by
  intro st
  have h : st.BetweenLines := behind_betweenLines lines
  have hstring : st.inString = st.current.opener.isSome :=
    congrArg Option.isSome h.openString?_eq
  refine ⟨h.current.inPlaceholder, ?_, ?_, ?_, ?_, ?_, ?_⟩
  · intro context hmem
    rw [h.outer context hmem]
    exact ⟨rfl, rfl, rfl⟩
  · intro quote hquote
    exact h.current.opener_cases hquote
  · exact h.current.opener_eq_backquote
  · intro hquoted
    have hopen : st.current ≠ {} := by
      intro hcode
      rw [hcode] at hquoted
      simp at hquoted
    rcases h.quoted hopen with htemplate | hnewline
    · rw [h.current.eq_template htemplate] at hquoted
      exact absurd hquoted (by decide)
    · exact hnewline
  · intro hnewline
    rw [hstring, Option.isSome_iff_ne_none]
    exact fun hnone => h.newline hnewline (h.current.eq_code hnone)
  · intro hcomment
    rw [hstring, h.comment hcomment]
    rfl

/-- The placeholder of a template holds a string that goes on in the next line, or a comment. -/
theorem strings_between_lines_nested :
    let template : Text := [Text.backquote, '$', '{']
    let escaped := language.tokenizer.behind language.initial
      [template ++ [Text.singleQuote, Text.backslash]]
    let commented := language.tokenizer.behind language.initial [template, Lexeme.blockOpen]
    let context : StringContext := .suspended
    (context ∈ escaped.outer ∧ context.opener = some Text.backquote ∧ context.inTemplate = true ∧
      context.inPlaceholder = true) ∧
    (Text.singleQuote ∈ escaped.current.opener ∧ (Text.singleQuote = Text.doubleQuote ∨
      Text.singleQuote = Text.singleQuote ∨ Text.singleQuote = Text.backquote)) ∧
    (escaped.newlineEscape = true ∧ escaped.inString = true) ∧
    (commented.inBlockComment = true ∧ commented.inString = false) := by
  intro template escaped commented context
  have hcontext : context ∈ escaped.outer := by decide +kernel
  have hopener : Text.singleQuote ∈ escaped.current.opener := by decide +kernel
  have hcomment : commented.inBlockComment = true := by decide +kernel
  obtain ⟨-, houter, hquote, -, hnewline, hstring, -⟩ :=
    strings_between_lines [template ++ [Text.singleQuote, Text.backslash]]
  obtain ⟨-, -, -, -, -, -, hblock⟩ := strings_between_lines [template, Lexeme.blockOpen]
  have hescape : escaped.newlineEscape = true := hnewline (.inr hopener)
  exact ⟨⟨hcontext, houter context hcontext⟩, ⟨hopener, hquote Text.singleQuote hopener⟩,
    ⟨hescape, hstring hescape⟩, hcomment, hblock hcomment⟩

end Highlight.JavaScript
