import Highlight.Proofs.Language.LastMatch
import Highlight.Proofs.Lexeme.Quoted
import Highlight.Proofs.Scanner.Front
/-! # Values in quotes

A value in quotes goes on over any lines up to the first quote of its kind. Character references are
looked for before everything else there, but none has a quote in it; so no token reaches over the
quote that ends the value, and nothing else ends it.
-/
namespace Highlight.Html

open Lexeme Pattern

/-- Inside a value in quotes. -/
structure State.InQuotedValue (st : State) (q : Char) : Prop where
  isQuote : Lexeme.isQuote q = true
  value : st.inAttributeValue = true
  opener : st.valueOpener = some q
  comment : st.inBlockComment = false
  block : st.embedded = none

/-- Behind the quote that ends a value. -/
def State.leaveValue (st : State) : State :=
  { st with inAttributeValue := false, valueOpener := none }

variable {st : State} {q c : Char} {cs t u last r : Text}

private theorem stopsAt_entity (hq : isQuote q = true) : StopsAt q entity := by
  have hsplit := isQuote_iff.mp hq
  have hchar : ∀ d, isQuote d = false → StopsAt q (char d) := by
    intro d hd
    apply stopsAt_char
    rintro rfl
    rw [hd] at hq
    contradiction
  have hclass : ∀ f : Char → Bool, f Text.doubleQuote = false → f Text.singleQuote = false →
      StopsAt q (one f) ∧ StopsAt q (many1 f) := by
    intro f hdouble hsingle
    rcases hsplit with rfl | rfl
    · exact ⟨stopsAt_one hdouble, stopsAt_many1 hdouble⟩
    · exact ⟨stopsAt_one hsingle, stopsAt_many1 hsingle⟩
  have hnumber := hchar '#' rfl
  have hname := (hclass Char.isAlphanum rfl rfl).2
  have hdecimal := hnumber.seq (hclass Char.isDigit rfl rfl).2
  have hmark := (hclass (['x', 'X'].contains ·) rfl rfl).1
  have hhex := hnumber.seq (hmark.seq ((hclass isHexDigit rfl rfl).2.seq (stopsAt_all_nil q)))
  have hforms := hname.alt (hdecimal.alt (hhex.alt (stopsAt_any_nil q)))
  exact (hchar '&' rfl).seq (hforms.seq ((hchar ';' rfl).optional.seq (stopsAt_all_nil q)))

private theorem entity_start {n : Nat} (h : entity t = some n) : n ≠ 0 ∧ ∃ cs, t = '&' :: cs := by
  constructor
  · rintro rfl
    exact (moves_one _).seq _ t h
  · obtain ⟨k, m, hk, -, -⟩ := seq_eq_some h
    obtain ⟨-, c, cs, rfl, hc⟩ := one_eq_some hk
    exact ⟨cs, by rw [beq_iff_eq.mp hc]⟩

private theorem exists_valuePiece (hu : u.Stops (· != q)) (hq : isQuote q = true) (c : Char)
    (cs : Text) :
    ∃ front rest, cs = front ++ rest ∧
      (alt quotedValueBody (one fun _ => true)).Takes (c :: front) (rest ++ u) := by
  let inRun : Char → Bool := fun c => !(isQuote c || c == '&')
  cases hc : inRun c with
  | false =>
    have hnone : quotedValueBody ([c] ++ (cs ++ u)) = none :=
      many1_eq_none (Text.stops_cons.mpr hc)
    exact ⟨[], cs, rfl, (takes_one rfl (cs ++ u)).alt_right hnone⟩
  | true =>
    have hstop : u.Stops inRun := hu.mono fun d hd => by
      have hquote : d = q := by simpa using hd
      simp [inRun, hquote, hq]
    have hrun : quotedValueBody.Takes (c :: cs.takeWhile inRun) (cs.dropWhile inRun ++ u) :=
      takes_run hc cs hstop
    exact ⟨_, _, List.takeWhile_append_dropWhile.symm, hrun.alt_left _⟩

namespace State.InQuotedValue

private theorem scan_reference (hst : st.InQuotedValue q) {s t : Scanner}
    (h : s.token? .escape entity = some t) : language.scan s st = (t, st) := by
  change scan s st = _
  rw [scan, hst.block]
  change scanMarkup s st = _
  rw [scanMarkup, if_neg (by simp [hst.comment]), h]

private theorem scan_value (hst : st.InQuotedValue q) {s : Scanner} (h : entity s.rest = none) :
    language.scan s st = scanQuotedValue q s st := by
  change scan s st = _
  rw [scan, hst.block]
  change scanMarkup s st = _
  rw [scanMarkup, if_neg (by simp [hst.comment]), Scanner.token?_eq_none h, if_pos hst.value,
    hst.opener]

theorem advances_close (hst : st.InQuotedValue q) (last r : Text) :
    language.Advances last st [q] [⟨.string, [q]⟩] [q] st.leaveValue r := by
  have hentity : entity (Scanner.resume last ([q] ++ r)).rest = none :=
    (stopsAt_entity hst.isQuote).same [] r
  apply Language.advances_token (by simp)
  rw [hst.scan_value hentity, scanQuotedValue, Scanner.tokenChar?_eq_some (r := r) rfl]
  rfl

private theorem advances_first (hst : st.InQuotedValue q) (hc : c ≠ q) (hu : u.Stops (· != q))
    (cs last : Text) :
    ∃ front rest token, cs = front ++ rest ∧ StringTokens .string (c :: front) [token] ∧
      (c ≠ '&' → token.kind = .string) ∧
      language.Advances last st (c :: front) [token] (c :: front) st (rest ++ u) := by
  cases hentity : entity (c :: cs ++ u) with
  | some n =>
    obtain ⟨hmoves, hstart⟩ := entity_start hentity
    obtain ⟨hlength, hfree⟩ := (stopsAt_entity hst.isQuote).within _ n hentity
    have hn : n ≤ (c :: cs).length := hu.le_length hlength hfree
    obtain ⟨k, rfl⟩ := Nat.exists_eq_succ_of_ne_zero hmoves
    have hk : (cs.take k).length = k := List.length_take_of_le (Nat.le_of_succ_le_succ hn)
    have hline : c :: cs.take k ++ (cs.drop k ++ u) = c :: cs ++ u := by
      rw [List.cons_append, ← List.append_assoc, List.take_append_drop, List.cons_append]
    have htake : entity.Takes (c :: cs.take k) (cs.drop k ++ u) := by
      rw [Takes, hline, hentity, List.length_cons, hk]
    have hampersand : c = '&' := by
      obtain ⟨_, hstart⟩ := hstart
      exact (List.cons_eq_cons.mp hstart).1
    refine ⟨cs.take k, cs.drop k, ⟨.escape, c :: cs.take k⟩, by simp, .escape _ _,
      fun hne => absurd hampersand hne, ?_⟩
    exact Language.advances_token (by simp)
      (hst.scan_reference (Scanner.token?_of_takes rfl htake .escape))
  | none =>
    obtain ⟨front, rest, rfl, hpiece⟩ := exists_valuePiece hu hst.isQuote c cs
    have hline : c :: front ++ (rest ++ u) = c :: (front ++ rest) ++ u := by simp
    have hnone : entity (Scanner.resume last (c :: front ++ (rest ++ u))).rest = none := by
      rw [← hentity, ← hline]
      rfl
    refine ⟨front, rest, ⟨.string, c :: front⟩, rfl, .single _ _, fun _ => rfl, ?_⟩
    apply Language.advances_token (by simp)
    rw [hst.scan_value hnone, scanQuotedValue, Scanner.tokenChar?_eq_none rfl hc,
      Scanner.accept_of_takes last hpiece]

/-- All of a text in front of the quote that ends the value, or at the end of the line. Only an
ampersand begins a token of another kind than the value's. -/
theorem advances_body (hst : st.InQuotedValue q) (hu : u.Stops (· != q)) (body : Text)
    (hbody : q ∉ body) (last : Text) :
    ∃ tokens last', StringTokens .string body tokens ∧
      ('&' ∉ body → ∀ token ∈ tokens, token.kind = .string) ∧
      language.Advances last st body tokens last' st u := by
  -- A token may be more than one character, so the induction is on how much is left.
  induction h : body.length using Nat.strongRecOn generalizing body last with
  | ind n ih =>
    cases body with
    | nil => exact ⟨[], last, .nil _, by simp, .refl _ _ _ _⟩
    | cons c cs =>
      have hc : c ≠ q := fun hc => hbody (hc ▸ List.mem_cons_self)
      obtain ⟨front, rest, token, rfl, hcover, hkind, hfirst⟩ :=
        hst.advances_first hc hu cs last
      have hshorter : rest.length < n := by
        rw [← h, List.length_cons, List.length_append]
        omega
      have hrest : q ∉ rest := fun hq =>
        hbody (List.mem_cons_of_mem c (List.mem_append_right front hq))
      obtain ⟨tokens, last', hcovers, hkinds, hmore⟩ := ih rest.length hshorter rest hrest _ rfl
      refine ⟨token :: tokens, last', hcover.append hcovers, ?_, hfirst.trans hmore⟩
      intro hampersand
      simp only [List.mem_cons, List.mem_append, not_or] at hampersand
      exact List.forall_mem_cons.mpr ⟨hkind (Ne.symm hampersand.1), hkinds hampersand.2.2⟩

private theorem tokenizeLine_ends (hst : st.InQuotedValue q) {body : Text} (hbody : q ∉ body)
    (r : Text) :
    ∃ tokens, StringTokens .string body tokens ∧
      language.tokenizeLine (body ++ q :: r) st =
        ⟨tokens ++ ⟨.string, [q]⟩ :: (language.tokenizeLine r st.leaveValue).tokens,
          (language.tokenizeLine r st.leaveValue).outbound⟩ := by
  have hstop : Text.Stops (· != q) (q :: r) := Text.stops_cons.mpr (by simp)
  obtain ⟨tokens, last', hcover, -, hadvances⟩ := hst.advances_body hstop body hbody []
  have hline := hadvances.trans (hst.advances_close last' r)
  rw [Language.Advances, lex_last [q] [], List.append_assoc, List.append_assoc] at hline
  refine ⟨tokens, hcover, ?_⟩
  change LineTokens.mk (language.lex [] (body ++ ([q] ++ r)) st).1
    (endLine (language.lex [] (body ++ ([q] ++ r)) st).2) = _
  rw [hline]
  rfl

private theorem tokenizeLine_goesOn (hst : st.InQuotedValue q) {line : Text} (hline : q ∉ line) :
    ∃ tokens, StringTokens .string line tokens ∧ language.tokenizeLine line st = ⟨tokens, st⟩ := by
  obtain ⟨tokens, last', hcover, -, hadvances⟩ :=
    hst.advances_body (Text.stops_nil _) line hline []
  have hend : endLine st = st := by
    rw [endLine, hst.opener]
    rfl
  refine ⟨tokens, hcover, ?_⟩
  change LineTokens.mk (language.lex [] line st).1 (endLine (language.lex [] line st).2) = _
  rw [hadvances.finish, hend]

end State.InQuotedValue

/-- A value in quotes ends at the first quote of its kind and nowhere else. In front of it stand
texts and character references, and behind it the line is read as one of its own that starts
behind the value; a line without such a quote leaves the state as it was. -/
theorem quoted_value_read (hst : st.InQuotedValue q) :
    (∀ body r, q ∉ body → ∃ tokens, StringTokens .string body tokens ∧
      language.tokenizeLine (body ++ q :: r) st =
        ⟨tokens ++ ⟨.string, [q]⟩ :: (language.tokenizeLine r st.leaveValue).tokens,
          (language.tokenizeLine r st.leaveValue).outbound⟩) ∧
    (∀ line, q ∉ line → ∃ tokens, StringTokens .string line tokens ∧
      language.tokenizeLine line st = ⟨tokens, st⟩) := by
  constructor
  · intro body r hbody
    exact hst.tokenizeLine_ends hbody r
  · intro line hline
    exact hst.tokenizeLine_goesOn hline

/-- The value of an attribute of a script. It holds the other quote, the end of a tag, a reference to
its own quote and the closing tag, and behind it the script begins. -/
theorem quoted_value_read_script :
    let st := language.tokenizer.behind language.initial ["<script a=\"".toList]
    let body : Text := "'>&quot;</script>".toList
    let line : Text := "&#x2G".toList
    st.InQuotedValue Text.doubleQuote ∧
      (∃ tokens, StringTokens .string body tokens ∧
        language.tokenizeLine (body ++ Text.doubleQuote :: ['>']) st =
          ⟨tokens ++ [⟨.string, [Text.doubleQuote]⟩, ⟨.syntaxSymbol, ['>']⟩],
            { tagName := some "script".toList, embedded := some (.javaScript {}) }⟩) ∧
      ∃ tokens, StringTokens .string line tokens ∧
        language.tokenizeLine line st = ⟨tokens, st⟩ := by
  intro st body line
  have hst : st.InQuotedValue Text.doubleQuote := by
    constructor <;> decide +kernel
  have hrest : language.tokenizeLine ['>'] st.leaveValue = ⟨[⟨.syntaxSymbol, ['>']⟩],
      { tagName := some "script".toList, embedded := some (.javaScript {}) }⟩ := by
    decide +kernel
  obtain ⟨hends, hgoesOn⟩ := quoted_value_read hst
  have hread := hends body ['>'] (by decide)
  rw [hrest] at hread
  exact ⟨hst, hread, hgoesOn line (by decide)⟩

end Highlight.Html
