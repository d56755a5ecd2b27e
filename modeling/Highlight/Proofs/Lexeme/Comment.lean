import Mathlib.Data.List.Infix
import Highlight.Proofs.Language.Advance
import Highlight.Proofs.Language.Lexeme
/-! # Comments between two marks

A comment is read in pieces that never jump over the mark that ends it: runs of characters with which
the mark does not begin, and the first character of the mark alone. So it ends at the first mark of
the line, whatever runs of such characters stand in front of that, and a line without the mark belongs
to it as a whole.
-/
namespace Highlight

/-- The text ends in the mark, and no shorter beginning of it does. -/
structure Text.EndsFirst (text mark : Text) : Prop where
  ends : mark <:+ text
  first : ∀ front, front <+: text → mark <:+ front → front = text

private theorem Text.endsFirst_iff {text mark : Text} :
    text.EndsFirst mark ↔ mark <:+ text ∧ ∀ front ∈ text.inits, mark <:+ front → front = text := by
  simp only [List.mem_inits]
  exact ⟨fun h => ⟨h.ends, h.first⟩, fun h => ⟨h.1, h.2⟩⟩

instance (text mark : Text) : Decidable (text.EndsFirst mark) :=
  decidable_of_iff _ Text.endsFirst_iff.symm

namespace Lexeme

open Pattern

theorem lineComment_eq_none {c : Char} (h : c ≠ '/') (cs : Text) : lineComment (c :: cs) = none :=
  seq_eq_none (literal_eq_none h ['/'] cs)

/-- The tokens spell a part of a comment. -/
structure CommentTokens (text : Text) (tokens : List Token) : Prop where
  spell : Token.spell tokens = text
  kinds : ∀ token ∈ tokens, token.kind = .comment

namespace CommentTokens

variable {t u : Text} {ts us : List Token}

private theorem nil : CommentTokens [] [] := ⟨rfl, by simp⟩

private theorem single (t : Text) : CommentTokens t [⟨.comment, t⟩] := ⟨by simp, by simp⟩

private theorem append (ht : CommentTokens t ts) (hu : CommentTokens u us) :
    CommentTokens (t ++ u) (ts ++ us) := by
  constructor
  · rw [Token.spell_append, ht.spell, hu.spell]
  · intro token htoken
    rcases List.mem_append.mp htoken with hmem | hmem
    · exact ht.kinds token hmem
    · exact hu.kinds token hmem

end CommentTokens

/-- In front of the rest, the mark begins nowhere in the text. -/
def Unmarked (mark text rest : Text) : Prop := ∀ s, s <:+ text → s ≠ [] → ¬ mark <+: s ++ rest

variable {mark close t u piece text line : Text} {s : Scanner}

private theorem Unmarked.behind (h : Unmarked mark (piece ++ t) u) : Unmarked mark t u :=
  fun s hs => h s (hs.trans (List.suffix_append piece t))

private theorem unmarked_of_absent (h : ¬ mark <:+: line) : Unmarked mark line [] := by
  intro s hs _ hmark
  rw [List.append_nil] at hmark
  exact h (hmark.isInfix.trans hs.isInfix)

private theorem unmarked_of_endsFirst (h : text.EndsFirst mark) (rest : Text) :
    ∃ body, text = body ++ mark ∧ Unmarked mark body (mark ++ rest) := by
  obtain ⟨body, rfl⟩ := h.ends
  refine ⟨body, rfl, ?_⟩
  rintro s ⟨front, rfl⟩ hne hmark
  -- A mark that begins in the body ends in front of the one behind it.
  have hshort : mark <+: s ++ mark := by
    rw [← List.append_assoc] at hmark
    exact List.prefix_of_prefix_length_le hmark (List.prefix_append _ rest) (by simp)
  obtain ⟨more, hmore⟩ := hshort
  have hearlier : front ++ mark = front ++ s ++ mark := by
    apply h.first _ _ (List.suffix_append front mark)
    rw [List.append_assoc, ← hmore, ← List.append_assoc]
    exact List.prefix_append _ more
  rw [List.append_assoc, List.append_cancel_left_eq] at hearlier
  exact hne (List.self_eq_append_left.mp hearlier)

private theorem scanComment_close (hclose : close ≠ []) (hs : s.rest = close ++ u) :
    scanComment close s = ((s.advance close.length).emit .comment, true) := by
  have htext : s.tokenText? .comment close = some ((s.advance close.length).emit .comment) := by
    rw [Scanner.tokenText?, Scanner.acceptText?_eq, if_pos ⟨hclose, hs ▸ List.prefix_append _ u⟩]
    rfl
  rw [scanComment, htext]

private theorem scanComment_piece (hmark : ¬ close <+: s.rest) :
    scanComment close s = ((s.accept (commentBody close)).emit .comment, false) := by
  have htext : s.tokenText? .comment close = none := by
    rw [Scanner.tokenText?, Scanner.acceptText?_eq, if_neg fun h => hmark h.2]
    rfl
  rw [scanComment, htext]

private theorem commentBody_first (hne : t ≠ []) (hu : u.Stops fun c => !(close.head? == some c)) :
    ∃ piece rest, piece ≠ [] ∧ t = piece ++ rest ∧
      (commentBody close).Takes piece (rest ++ u) := by
  obtain ⟨c, cs, rfl⟩ := List.exists_cons_of_ne_nil hne
  let isOther (c : Char) : Bool := !(close.head? == some c)
  by_cases hc : isOther c = true
  · refine ⟨c :: cs.takeWhile isOther, cs.dropWhile isOther, by simp, ?_, ?_⟩
    · exact run_append_rest isOther c cs
    · exact (takes_run hc cs hu).alt_left _
  · have hother : isOther c = false := by simpa using hc
    have hstart : (close.head? == some c) = true := by simpa [isOther] using hc
    refine ⟨[c], cs, by simp, rfl, ?_⟩
    exact (takes_one hstart _).alt_right (many1_eq_none (Text.stops_cons.mpr hother))

end Lexeme

namespace Language

open Lexeme

variable {σ : Type}

/-- How a language reads a comment: from a state inside it, to the state behind the mark that ends
it. -/
structure ScansComment (L : Language σ) (close : Text) (inside outside : σ) : Prop where
  mark : close ≠ []
  scan : ∀ s, L.scan s inside =
    ((scanComment close s).1, if (scanComment close s).2 then outside else inside)

/-- What a line does to a comment that is open before it: the comment ends with the first mark, and
the rest is read as a line of its own from the state in which the comment is closed. Where there is
no mark the whole line is of the comment, which stays open, and nothing but the end of a line happens
to the state. -/
structure ReadsComment (L : Language σ) (close : Text) (isOpen : σ → Bool) (st closed : σ) :
    Prop where
  ends : ∀ text rest, text.EndsFirst close → ∃ tokens,
    CommentTokens text tokens ∧
    L.tokenizeLine (text ++ rest) st =
      ⟨tokens ++ (L.tokenizeLine rest closed).tokens, (L.tokenizeLine rest closed).outbound⟩
  goesOn : ∀ line, ¬ close <:+: line →
    CommentTokens line (L.tokenizeLine line st).tokens ∧
    isOpen (L.tokenizeLine line st).outbound = true ∧
    (L.tokenizeLine line st).outbound = (L.tokenizeLine [] st).outbound

namespace ScansComment

variable {L : Language σ} {close text line t u piece last : Text} {inside outside : σ}

/-- A language with a flag for comments that a step inside a comment sets anew, and that does nothing
else. -/
theorem of_flag {flagged : Bool → σ} (hmark : close ≠ [])
    (hscan : ∀ s, L.scan s (flagged true) =
      ((scanComment close s).1, flagged (!(scanComment close s).2))) :
    L.ScansComment close (flagged true) (flagged false) := by
  refine ⟨hmark, fun s => ?_⟩
  rw [hscan]
  cases (scanComment close s).2 <;> rfl

private theorem advances_close (h : L.ScansComment close inside outside) (last u : Text) :
    L.Advances last inside close [⟨.comment, close⟩] close outside u := by
  apply advances_token h.mark
  rw [h.scan, scanComment_close h.mark rfl]
  rfl

private theorem advances_piece (h : L.ScansComment close inside outside) (hne : piece ≠ [])
    (hmark : ¬ close <+: piece ++ u) (hpiece : (commentBody close).Takes piece u) :
    L.Advances last inside piece [⟨.comment, piece⟩] piece inside u := by
  apply advances_token hne
  rw [h.scan, scanComment_piece (s := .resume last (piece ++ u)) hmark,
    Scanner.accept_of_takes last hpiece]
  rfl

private theorem advances_body (h : L.ScansComment close inside outside) (ht : Unmarked close t u)
    (hu : u.Stops fun c => !(close.head? == some c)) (last : Text) :
    ∃ tokens last', CommentTokens t tokens ∧ L.Advances last inside t tokens last' inside u := by
  generalize hn : t.length = n
  induction n using Nat.strongRecOn generalizing t last with
  | ind n ih =>
    by_cases hne : t = []
    · subst hne
      exact ⟨[], last, .nil, .refl L last inside u⟩
    · obtain ⟨piece, rest, hpiece, rfl, htakes⟩ := commentBody_first hne hu
      have hlength : rest.length < n := by
        have hpos : 0 < piece.length := List.length_pos_iff.mpr hpiece
        rw [List.length_append] at hn
        omega
      have hmark : ¬ close <+: piece ++ (rest ++ u) := by
        rw [← List.append_assoc]
        exact ht _ List.suffix_rfl hne
      obtain ⟨tokens, last', htokens, hmore⟩ := ih rest.length hlength ht.behind piece rfl
      exact ⟨[⟨.comment, piece⟩] ++ tokens, last', (CommentTokens.single piece).append htokens,
        (h.advances_piece hpiece hmark htakes).trans hmore⟩

/-- A text up to its first mark. -/
theorem advances_text (h : L.ScansComment close inside outside) (htext : text.EndsFirst close)
    (last rest : Text) : ∃ tokens, CommentTokens text tokens ∧
      L.Advances last inside text tokens close outside rest := by
  obtain ⟨body, rfl, hbody⟩ := unmarked_of_endsFirst htext rest
  have hstops : Text.Stops (fun c => !(close.head? == some c)) (close ++ rest) := by
    obtain ⟨c, cs, hcons⟩ := List.exists_cons_of_ne_nil h.mark
    rw [hcons]
    exact Text.stops_cons.mpr (by simp)
  obtain ⟨tokens, last', htokens, hadvances⟩ := h.advances_body hbody hstops last
  exact ⟨_, htokens.append (.single close), hadvances.trans (h.advances_close last' rest)⟩

variable {st closed : σ} {isOpen : σ → Bool}

/-- A line that finds a comment open, where the mark counts for nothing as a last match. -/
theorem readsComment (h : L.ScansComment close inside outside) (hst : L.beginLine st = inside)
    (hclosed : L.beginLine closed = outside)
    (hlast : ∀ r, L.lex close r outside = L.lex [] r outside)
    (hopen : isOpen (L.endLine inside) = true) : L.ReadsComment close isOpen st closed := by
  constructor
  · intro text rest htext
    obtain ⟨tokens, htokens, hadvances⟩ := h.advances_text htext [] rest
    refine ⟨tokens, htokens, ?_⟩
    rw [Advances, hlast] at hadvances
    simp only [tokenizeLine, hst, hclosed, hadvances]
  · intro line hline
    obtain ⟨tokens, last', htokens, hadvances⟩ :=
      h.advances_body (unmarked_of_absent hline) (Text.stops_nil _) []
    have hread : L.tokenizeLine line st = ⟨tokens, L.endLine inside⟩ := by
      rw [tokenizeLine, hst, hadvances.finish]
    have hempty : L.tokenizeLine [] st = ⟨[], L.endLine inside⟩ := by
      rw [tokenizeLine, hst, lex]
    rw [hread, hempty]
    exact ⟨htokens, hopen, rfl⟩

end ScansComment
end Language
end Highlight
