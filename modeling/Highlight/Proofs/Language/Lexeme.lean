import Highlight.Lexeme.Comment
import Highlight.Lexeme.Escape
import Highlight.Proofs.Scanner.Step
/-! # Steps that languages share

Single tokens, escape sequences and comments as faithful steps. Where a step answers no state, the
language adds one of its own.
-/
namespace Highlight

open Scanner

variable {α : Type}

namespace Scanner

theorem faithful_token (kind : TokenKind) (p : Pattern) (a : α) :
    Faithful fun s => (s.token? kind p).map (·, a) :=
  (consuming_accept p).emit kind fun _ => a

theorem faithful_tokenMatch (kind : TokenKind) (p : Pattern) (k : Text → α) :
    Faithful fun s => (s.token? kind p).map fun t => (t, k t.lastMatch) :=
  (consuming_accept p).emit kind k

theorem faithful_tokenBefore (kind : TokenKind) (p ahead : Pattern) (a : α) :
    Faithful fun s => (s.tokenBefore? kind p ahead).map (·, a) :=
  (consuming_acceptBefore p ahead).emit kind fun _ => a

theorem faithful_tokenText (kind : TokenKind) (t : Text) (a : α) :
    Faithful fun s => (s.tokenText? kind t).map (·, a) :=
  (consuming_acceptText t).emit kind fun _ => a

theorem faithful_tokenAny (kind : TokenKind) (ts : List Text) (a : α) :
    Faithful fun s => (s.tokenAny? kind ts).map (·, a) :=
  (consuming_acceptAny ts).emit kind fun _ => a

theorem faithful_tokenChar (kind : TokenKind) (c : Char) (a : α) :
    Faithful fun s => (s.tokenChar? kind c).map (·, a) :=
  (consuming_acceptChar c).emit kind fun _ => a

theorem Faithful.onlyIf {f : Scanner → Option Scanner} (b : Prop) [Decidable b] (a : α)
    (hf : Faithful fun s => (f s).map (·, a)) :
    Faithful fun s => (if b then f s else none).map (·, a) := by
  by_cases hb : b
  · simpa [hb] using hf
  · simpa [hb] using Faithful.fail

theorem faithful_classify (p : Pattern) (kind? : Text → Text → Option TokenKind) (a : α) :
    Faithful fun s => ((s.peek? p).bind fun word =>
      (kind? s.lastMatch word).map (s.advance word.length |>.emit ·)).map (·, a) := by
  apply (faithful_decided fun last rest => ((p rest).map rest.take).bind fun word =>
    (kind? last word).map fun kind => (word.length, kind, a)).congr
  intro s
  rw [peek?]
  cases hp : (p s.rest).map s.rest.take with
  | none => rfl
  | some word => cases hkind : kind? s.lastMatch word <;> simp [hkind]

private theorem token_after (s : Scanner) (kind : TokenKind) (p : Pattern) (consumed : Text)
    (tokens : List Token) :
    (s.after consumed tokens).token? kind p =
      (s.token? kind p).map (·.after consumed tokens) := by
  rw [token?, token?, accept?, accept?, after_rest]
  cases p s.rest with
  | none => rfl
  | some n => simp [advance_after, emit_after]

theorem faithful_token_token (kind kind' : TokenKind) (p q : Pattern) (a : α) :
    Faithful fun s =>
      ((s.token? kind p).map fun t => (t.token? kind' q).getD t).map (·, a) := by
  constructor
  · intro s r _ h
    obtain ⟨u, hu, rfl⟩ := Option.map_eq_some_iff.mp h
    obtain ⟨t, ht, rfl⟩ := Option.map_eq_some_iff.mp hu
    obtain ⟨t', ht', rfl⟩ := Option.map_eq_some_iff.mp ht
    obtain ⟨n, -, rfl⟩ := Option.map_eq_some_iff.mp ht'
    have hfirst := covers_advance_emit s n kind
    cases hq : q ((s.advance n).emit kind).rest with
    | none => simpa only [token?, accept?, hq, Option.map_none, Option.getD_none] using hfirst
    | some m =>
      have hsecond := covers_advance_emit ((s.advance n).emit kind) m kind'
      simpa only [token?, accept?, hq, Option.map_some, Option.getD_some] using
        hfirst.trans hsecond
  · intro s consumed tokens
    rw [token_after]
    cases s.token? kind p with
    | none => rfl
    | some t =>
      simp only [Option.map_some, token_after]
      cases t.token? kind' q <;> rfl

end Scanner

namespace Lexeme

theorem escape_faithful (k : Bool → α) :
    Faithful fun s => (escape? s).map fun r => (r.1, k r.2) := by
  have hcode := faithful_token .escape (.any [octalEscape, hexEscape, unicodeEscape]) false
  have hlineEnd := faithful_token .escape lineEndEscape true
  have hsingle := faithful_token .escape singleEscape false
  exact (hcode.orElse (hlineEnd.orElse hsingle)).map k

theorem commentBody_total (close : Text) : (commentBody close).Total := by
  apply Pattern.total_alt
  intro c
  dsimp only
  cases close.head? == some c with
  | false => exact .inl rfl
  | true => exact .inr rfl

theorem scanComment_faithful (close : Text) (k : Bool → α) :
    Faithful fun s => some ((scanComment close s).1, k (scanComment close s).2) := by
  have hclose := faithful_tokenText .comment close true
  have hbody := faithful_accept_emit (commentBody_total close) .comment false
  have hstep : Faithful fun s => some (scanComment close s) := by
    apply (hclose.getD hbody).congr
    intro s
    rw [scanComment]
    cases s.tokenText? .comment close <;> rfl
  exact hstep.map k

end Lexeme
end Highlight
