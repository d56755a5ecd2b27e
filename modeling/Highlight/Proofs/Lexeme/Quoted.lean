import Highlight.Proofs.Language.Loop
import Highlight.Proofs.Lexeme.Escape
/-! # Strings in quotes

Some languages read strings by the same three rules: an escape sequence, else the quote that ends
the string, else a piece of what stands between the quotes. Whatever the escape sequences are taken
for, such a string ends at the first quote of its kind that an even number of backslashes precedes,
and it goes on in the next line only behind an odd number of them.
-/
namespace Highlight

namespace Lexeme

open Pattern

/-- What follows the text is escaped: the text ends in an odd number of backslashes. -/
def EndsEscaped (t : Text) : Prop :=
  (t.reverse.takeWhile (· == Text.backslash)).length % 2 = 1

instance : DecidablePred EndsEscaped := fun t =>
  inferInstanceAs (Decidable ((t.reverse.takeWhile (· == Text.backslash)).length % 2 = 1))

/-- The quote is escaped wherever it stands in the text. -/
def AllEscaped (q : Char) (t : Text) : Prop :=
  ∀ front rest, t = front ++ q :: rest → EndsEscaped front

variable {q c : Char} {t u : Text}

private theorem allEscaped_iff :
    AllEscaped q t ↔ ∀ i < t.length, t[i]? = some q → EndsEscaped (t.take i) := by
  constructor
  · intro h i hi hget
    have hquote : t[i] = q := by simpa [hi] using hget
    apply h (t.take i) (t.drop (i + 1))
    rw [← hquote, List.getElem_cons_drop, List.take_append_drop]
  · rintro h front rest rfl
    have hfront := h front.length (by simp) (by simp)
    rwa [List.take_left] at hfront

instance : Decidable (AllEscaped q t) := decidable_of_iff _ allEscaped_iff.symm

theorem endsEscaped_behind (hc : c ≠ Text.backslash) (front t : Text) :
    EndsEscaped (front ++ c :: t) ↔ EndsEscaped t := by
  have hstop : (c :: front.reverse).takeWhile (· == Text.backslash) = [] :=
    List.takeWhile_cons_of_neg (by simpa using hc)
  rw [EndsEscaped, EndsEscaped, List.reverse_append, List.reverse_cons, List.append_assoc,
    List.singleton_append, List.takeWhile_append, hstop, List.append_nil]
  split
  · rename_i hall
    rw [hall]
  · rfl

private theorem endsEscaped_escaped (c : Char) (t : Text) :
    EndsEscaped (Text.backslash :: c :: t) ↔ EndsEscaped t := by
  by_cases hc : c = Text.backslash
  · subst hc
    rw [EndsEscaped, EndsEscaped, List.reverse_cons, List.reverse_cons, List.append_assoc,
      List.takeWhile_append]
    split
    · rename_i hall
      rw [List.length_append, hall]
      exact Iff.of_eq (congrArg (· = 1) (Nat.add_mod_right _ 2))
    · rfl
  · exact endsEscaped_behind hc [Text.backslash] t

private theorem AllEscaped.tail (h : AllEscaped q (c :: t)) (hc : c ≠ Text.backslash) :
    c ≠ q ∧ AllEscaped q t := by
  constructor
  · rintro rfl
    exact absurd (h [] t rfl) (by decide)
  · intro front rest ht
    exact (endsEscaped_behind hc [] front).mp (h (c :: front) rest (congrArg (c :: ·) ht))

private theorem AllEscaped.behind_escaped (h : AllEscaped q (Text.backslash :: c :: t)) :
    AllEscaped q t := by
  intro front rest ht
  have hfront := h (Text.backslash :: c :: front) rest (congrArg (Text.backslash :: c :: ·) ht)
  exact (endsEscaped_escaped c front).mp hfront

private theorem AllEscaped.cut : ∀ {t : Text}, AllEscaped q t →
    (¬ EndsEscaped t ∧ Enclosed q t) ∨
      (EndsEscaped t ∧ ∃ body, t = body ++ [Text.backslash] ∧ Enclosed q body)
  | [], _ => .inl ⟨by decide, .nil⟩
  | [c], h => by
    by_cases hc : c = Text.backslash
    · subst hc
      exact .inr ⟨by decide, [], rfl, .nil⟩
    · have hend : ¬ EndsEscaped [c] :=
        (not_congr (endsEscaped_behind hc [] [])).mpr (by decide)
      exact .inl ⟨hend, .plain (h.tail hc).1 hc .nil⟩
  | c :: d :: t, h => by
    by_cases hc : c = Text.backslash
    · subst hc
      rcases h.behind_escaped.cut with ⟨hend, ht⟩ | ⟨hend, body, rfl, hbody⟩
      · exact .inl ⟨(not_congr (endsEscaped_escaped d t)).mpr hend, .escaped d ht⟩
      · exact .inr ⟨(endsEscaped_escaped d _).mpr hend, _ :: d :: body, rfl, .escaped d hbody⟩
    · obtain ⟨hquote, hrest⟩ := h.tail hc
      have hsame := endsEscaped_behind hc [] (d :: t)
      rcases hrest.cut with ⟨hend, ht⟩ | ⟨hend, body, hbody, hcut⟩
      · exact .inl ⟨(not_congr hsame).mpr hend, .plain hquote hc ht⟩
      · refine .inr ⟨hsame.mpr hend, c :: body, ?_, .plain hquote hc hcut⟩
        rw [hbody, List.cons_append]

private theorem isEscapable_of_isQuote (h : isQuote c = true) : isEscapable c = true := by
  rcases isQuote_iff.mp h with rfl | rfl <;> rfl

theorem isQuote_ne_backslash (h : isQuote c = true) : c ≠ Text.backslash := by
  rintro rfl
  contradiction

theorem isQuote_ne_point (h : isQuote c = true) : [c] ≠ ['.'] := by
  intro hpoint
  rw [(List.cons_eq_cons.mp hpoint).1] at h
  contradiction

theorem stops_isPlain_of_isQuote (h : isQuote q = true) (r : Text) :
    Text.Stops isPlain (q :: r) := Text.stops_cons.mpr (by simp [isPlain, h])

private theorem escape?_lineEnd (last : Text) : escape? (.resume last [Text.backslash]) =
    some (((Scanner.resume last [Text.backslash]).advance 1).emit .escape, true) := rfl

/-- A piece of a string: a run of characters of a class, or else any one but a line feed. -/
def stringPiece (run : Char → Bool) : Pattern := alt (many1 run) (one (· != '\n'))

/-- The tokens spell a part of a string. They are escape sequences or of the kind of the string. -/
structure StringTokens (kind : TokenKind) (text : Text) (tokens : List Token) : Prop where
  spell : Token.spell tokens = text
  kinds : ∀ token ∈ tokens, token.kind = .escape ∨ token.kind = kind

namespace StringTokens

variable {kind : TokenKind} {ts us : List Token}

theorem nil (kind : TokenKind) : StringTokens kind [] [] := ⟨rfl, by simp⟩

theorem single (kind : TokenKind) (t : Text) : StringTokens kind t [⟨kind, t⟩] :=
  ⟨by simp, by simp⟩

theorem escape (kind : TokenKind) (t : Text) : StringTokens kind t [⟨.escape, t⟩] :=
  ⟨by simp, by simp⟩

theorem append (ht : StringTokens kind t ts) (hu : StringTokens kind u us) :
    StringTokens kind (t ++ u) (ts ++ us) := by
  constructor
  · rw [Token.spell_append, ht.spell, hu.spell]
  · intro token htoken
    rcases List.mem_append.mp htoken with hmem | hmem
    · exact ht.kinds token hmem
    · exact hu.kinds token hmem

end StringTokens
end Lexeme

namespace Language

open Lexeme Pattern

variable {σ : Type}

/-- How a language reads a string: from a state inside it, to the state behind the quote that ends
it or to the one behind a line that ends in an escape sequence of its own. -/
structure ReadsString (L : Language σ) (kind : TokenKind) (run : Char → Bool) (q : Char)
    (inside outside broken : σ) : Prop where
  isQuote : isQuote q = true
  plain : ∀ c, run c = true → isPlain c = true
  lineFeed : run '\n' = true
  escape : ∀ {s t endsLine}, escape? s = some (t, endsLine) →
    L.scan s inside = (t, if endsLine then broken else inside)
  close : ∀ {s t}, escape? s = none → s.tokenChar? kind q = some t → L.scan s inside = (t, outside)
  piece : ∀ {s}, escape? s = none → s.tokenChar? kind q = none →
    L.scan s inside = ((s.accept (stringPiece run)).emit kind, inside)

/-- What a line does to a string in quotes that is open before it: the string ends at the first
quote of its kind that is not escaped, and the rest is read as a line of its own from the state in
which the string is closed. Where there is no such quote the whole line is of the string, and what
escapes the end of the line keeps the string open. -/
structure ReadsQuoted (L : Language σ) (kind : TokenKind) (opener? : σ → Option Char) (q : Char)
    (st closed : σ) : Prop where
  ends : ∀ body rest, AllEscaped q body → ¬ EndsEscaped body → ∃ tokens,
    StringTokens kind body tokens ∧
    L.tokenizeLine (body ++ q :: rest) st =
      ⟨tokens ++ ⟨kind, [q]⟩ :: (L.tokenizeLine rest closed).tokens,
        (L.tokenizeLine rest closed).outbound⟩
  goesOn : ∀ line, AllEscaped q line →
    StringTokens kind line (L.tokenizeLine line st).tokens ∧
    (opener? (L.tokenizeLine line st).outbound = some q ↔ EndsEscaped line)

namespace ReadsString

variable {L : Language σ} {kind : TokenKind} {run : Char → Bool} {q : Char}
  {inside outside broken : σ} {last t u : Text} {c : Char} {cs : Text}

private theorem advances_piece (h : L.ReadsString kind run q inside outside broken) (hc : c ≠ q)
    (hescape : escape? (.resume last (c :: cs ++ u)) = none)
    (hpiece : (stringPiece run).Takes (c :: cs) u) :
    L.Advances last inside (c :: cs) [⟨kind, c :: cs⟩] (c :: cs) inside u := by
  apply advances_token (by simp)
  rw [h.piece hescape (Scanner.tokenChar?_eq_none rfl hc kind),
    Scanner.accept_of_takes last hpiece]

private theorem advances_escape (h : L.ReadsString kind run q inside outside broken)
    (hescape : escape? (.resume last (c :: cs ++ u)) =
      some (((Scanner.resume last (c :: cs ++ u)).advance (c :: cs).length).emit .escape, false)) :
    L.Advances last inside (c :: cs) [⟨.escape, c :: cs⟩] (c :: cs) inside u := by
  apply advances_token (by simp)
  rw [h.escape hescape, if_neg Bool.false_ne_true]

/-- A first step inside a string turns a piece of the body into one token and leaves a body. -/
def HasFirst (L : Language σ) (kind : TokenKind) (q : Char) (inside : σ) (last t u : Text) : Prop :=
  ∃ piece rest token, piece ≠ [] ∧ t = piece ++ rest ∧ Enclosed q rest ∧
    StringTokens kind piece [token] ∧ L.Advances last inside piece [token] piece inside (rest ++ u)

private theorem hasFirst_run (h : L.ReadsString kind run q inside outside broken)
    (hrun : run c = true) (ht : Enclosed q (c :: cs)) (hu : u.Stops isPlain) :
    HasFirst L kind q inside last (c :: cs) u := by
  have hplain := isPlain_iff.mp (h.plain c hrun)
  have hc : c ≠ q := by
    rintro rfl
    exact absurd h.isQuote (by simp [hplain.1])
  have hsplit := run_append_rest run c cs
  have hall := forall_mem_run hrun cs
  have hstops : u.Stops run := by
    refine hu.mono fun d hd => ?_
    cases hrun : run d with
    | false => rfl
    | true => exact absurd (h.plain d hrun) (by simp [hd])
  have hrest : Enclosed q (cs.dropWhile run) := by
    rw [hsplit] at ht
    exact ht.of_append fun d hd => (isPlain_iff.mp (h.plain d (hall d hd))).2
  have hpiece : (stringPiece run).Takes (c :: cs.takeWhile run) (cs.dropWhile run ++ u) :=
    (takes_run hrun cs hstops).alt_left _
  exact ⟨_, _, _, by simp, hsplit, hrest, .single _ _,
    h.advances_piece hc (escape?_eq_none rfl hplain.2) hpiece⟩

private theorem hasFirst_single (h : L.ReadsString kind run q inside outside broken) (hc : c ≠ q)
    (hrun : run c = false) (hrest : Enclosed q cs)
    (hescape : escape? (.resume last (c :: (cs ++ u))) = none) :
    HasFirst L kind q inside last (c :: cs) u := by
  have hpiece : (stringPiece run).Takes [c] (cs ++ u) := by
    refine (takes_one ?_ _).alt_right (many1_eq_none (Text.stops_cons.mpr hrun))
    rw [bne_iff_ne]
    rintro rfl
    rw [h.lineFeed] at hrun
    contradiction
  exact ⟨[c], cs, _, by simp, rfl, hrest, .single _ _, h.advances_piece hc hescape hpiece⟩

private theorem hasFirst_backslash (h : L.ReadsString kind run q inside outside broken)
    (ht : Enclosed q cs) (hu : u.Stops isPlain) :
    HasFirst L kind q inside last (Text.backslash :: c :: cs) u := by
  -- A backslash is read with what it escapes, or else alone, and then the character behind it does
  -- not end the string.
  rcases escape?_backslash (s := .resume last (Text.backslash :: c :: (cs ++ u))) rfl with
    ⟨n, hlen, hplain, hescape⟩ | ⟨hescape, hc⟩
  · have hn := hu.le_length hlen hplain
    have htake : (cs ++ u).take n = cs.take n := List.take_append_of_le_length hn
    have hsplit : cs.take n ++ cs.drop n = cs := List.take_append_drop n cs
    have hrest : Enclosed q (cs.drop n) := by
      rw [← hsplit] at ht
      exact ht.of_append fun d hd => (isPlain_iff.mp (hplain d (htake ▸ hd))).2
    have hlength : (Text.backslash :: c :: cs.take n).length = n + 2 := by simp [hn]
    have hline : Text.backslash :: c :: cs.take n ++ (cs.drop n ++ u) =
        Text.backslash :: c :: (cs ++ u) := by
      rw [List.cons_append, List.cons_append, ← List.append_assoc, hsplit]
    refine ⟨Text.backslash :: c :: cs.take n, cs.drop n, _, by simp, by simp, hrest, .escape _ _,
      h.advances_escape ?_⟩
    rw [hlength, hline, hescape]
  · have hquote : c ≠ q := by
      rintro rfl
      rw [isEscapable_of_isQuote h.isQuote] at hc
      contradiction
    have hbackslash : c ≠ Text.backslash := by
      rintro rfl
      contradiction
    have hrun : run Text.backslash = false := by
      cases hrun : run Text.backslash with
      | false => rfl
      | true => exact absurd (h.plain _ hrun) (by decide)
    exact h.hasFirst_single (isQuote_ne_backslash h.isQuote).symm hrun
      (.plain hquote hbackslash ht) hescape

private theorem hasFirst (h : L.ReadsString kind run q inside outside broken) (hne : t ≠ [])
    (ht : Enclosed q t) (hu : u.Stops isPlain) (last : Text) :
    HasFirst L kind q inside last t u := by
  cases ht with
  | nil => contradiction
  | @plain c cs hquote hbackslash hrest =>
    cases hrun : run c with
    | true => exact h.hasFirst_run hrun (.plain hquote hbackslash hrest) hu
    | false => exact h.hasFirst_single hquote hrun hrest (escape?_eq_none rfl hbackslash)
  | escaped c hrest => exact h.hasFirst_backslash hrest hu

/-- The body of a string, in front of what is not plain. -/
theorem advances_body (h : L.ReadsString kind run q inside outside broken) (ht : Enclosed q t)
    (hu : u.Stops isPlain) (last : Text) : ∃ tokens last', StringTokens kind t tokens ∧
      L.Advances last inside t tokens last' inside u := by
  generalize hn : t.length = n
  induction n using Nat.strongRecOn generalizing t last with
  | ind n ih =>
    by_cases hne : t = []
    · subst hne
      exact ⟨[], last, .nil _, .refl L last inside u⟩
    · obtain ⟨piece, rest, token, hpiece, rfl, hrest, hcover, hfirst⟩ := h.hasFirst hne ht hu last
      have hlength : rest.length < n := by
        have hpos : 0 < piece.length := List.length_pos_iff.mpr hpiece
        rw [List.length_append] at hn
        omega
      obtain ⟨tokens, last', hcovers, hmore⟩ := ih rest.length hlength hrest piece rfl
      exact ⟨[token] ++ tokens, last', hcover.append hcovers, hfirst.trans hmore⟩

theorem advances_close (h : L.ReadsString kind run q inside outside broken) (last r : Text) :
    L.Advances last inside [q] [⟨kind, [q]⟩] [q] outside r := by
  apply advances_token (by simp)
  have hescape : escape? (.resume last ([q] ++ r)) = none :=
    escape?_eq_none rfl (isQuote_ne_backslash h.isQuote)
  exact h.close hescape (Scanner.tokenChar?_eq_some rfl kind)

private theorem advances_lineEnd (h : L.ReadsString kind run q inside outside broken)
    (last : Text) :
    L.Advances last inside [Text.backslash] [⟨.escape, [Text.backslash]⟩] [Text.backslash] broken
      [] := by
  apply advances_token (by simp)
  exact h.escape (escape?_lineEnd last)

variable {st closed : σ} {opener? : σ → Option Char}

private theorem tokenizeLine_ends (h : L.ReadsString kind run q inside outside broken)
    (hst : L.beginLine st = inside) (hclosed : L.beginLine closed = outside)
    (hlast : ∀ r, L.lex [q] r outside = L.lex [] r outside) (ht : Enclosed q t) (r : Text) :
    ∃ tokens, StringTokens kind t tokens ∧
      L.tokenizeLine (t ++ q :: r) st =
        ⟨tokens ++ ⟨kind, [q]⟩ :: (L.tokenizeLine r closed).tokens,
          (L.tokenizeLine r closed).outbound⟩ := by
  obtain ⟨tokens, last', hcover, hbody⟩ :=
    h.advances_body ht (stops_isPlain_of_isQuote h.isQuote r) []
  have hquoted : L.lex [] (t ++ q :: r) inside =
      (tokens ++ ⟨kind, [q]⟩ :: (L.lex [] r outside).1, (L.lex [] r outside).2) := by
    have hadvance := hbody.trans (h.advances_close last' r)
    rw [Advances, hlast, List.append_assoc, List.append_assoc] at hadvance
    exact hadvance
  refine ⟨tokens, hcover, ?_⟩
  simp only [tokenizeLine, hst, hclosed, hquoted]

private theorem tokenizeLine_goesOn (h : L.ReadsString kind run q inside outside broken)
    (hst : L.beginLine st = inside) (ht : AllEscaped q t) :
    StringTokens kind t (L.tokenizeLine t st).tokens ∧
      (L.tokenizeLine t st).outbound = L.endLine (if EndsEscaped t then broken else inside) := by
  rw [tokenizeLine, hst]
  rcases ht.cut with ⟨hend, henclosed⟩ | ⟨hend, body, rfl, hbody⟩
  · obtain ⟨tokens, last', hcover, hline⟩ := h.advances_body henclosed (Text.stops_nil isPlain) []
    rw [hline.finish, if_neg hend]
    exact ⟨hcover, rfl⟩
  · have hstops : Text.Stops isPlain [Text.backslash] := Text.stops_cons.mpr (by decide)
    obtain ⟨tokens, last', hcover, hline⟩ := h.advances_body hbody hstops []
    rw [(hline.trans (h.advances_lineEnd last')).finish, if_pos hend]
    exact ⟨hcover.append (.escape kind _), rfl⟩

/-- A line that finds a string open, where the end of the line closes strings unless it is escaped,
and the quote counts for nothing as a last match. -/
theorem readsQuoted (h : L.ReadsString kind run q inside outside broken)
    (hst : L.beginLine st = inside) (hclosed : L.beginLine closed = outside)
    (hlast : ∀ r, L.lex [q] r outside = L.lex [] r outside)
    (hbroken : opener? (L.endLine broken) = some q) (hinside : opener? (L.endLine inside) = none) :
    L.ReadsQuoted kind opener? q st closed := by
  constructor
  · intro body rest hbody hend
    rcases hbody.cut with ⟨-, henclosed⟩ | ⟨hescaped, -⟩
    · exact h.tokenizeLine_ends hst hclosed hlast henclosed rest
    · exact absurd hescaped hend
  · intro line hline
    obtain ⟨htokens, hout⟩ := h.tokenizeLine_goesOn hst hline
    refine ⟨htokens, ?_⟩
    rw [hout]
    by_cases hend : EndsEscaped line
    · simp [hend, hbroken]
    · simp [hend, hinside]

end ReadsString
end Language
end Highlight
