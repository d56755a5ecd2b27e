import Highlight.Language
import Highlight.Proofs.Scanner.Take
/-! # Reading the front of a line

What a lexer does with the front of a line in front of what follows it: the tokens of the front come
first, and the rest is read from the state and the last match behind it. Fronts are put together
from single tokens.
-/
namespace Highlight

namespace Scanner

variable {s : Scanner} {p : Pattern} {t r : Text}

theorem advance_emit (consumed last : Text) (tokens : List Token) (hne : t ≠ []) (r : Text)
    (kind : TokenKind) :
    ((⟨consumed, t ++ r, last, tokens⟩ : Scanner).advance t.length).emit kind =
      ⟨consumed ++ t, r, t, tokens ++ [⟨kind, t⟩]⟩ := by
  simp [advance, emit, hne]

theorem token?_of_takes (hs : s.rest = t ++ r) (h : p.Takes t r) (kind : TokenKind) :
    s.token? kind p = some ((s.advance t.length).emit kind) := by
  have h : p (t ++ r) = some t.length := h
  simp [token?, accept?, hs, h]

theorem token?_eq_none (h : p s.rest = none) (kind : TokenKind) : s.token? kind p = none := by
  simp [token?, accept?, h]

theorem token?_eq_some {kind : TokenKind} {u : Scanner} (h : s.token? kind p = some u) :
    ∃ n, p s.rest = some n ∧ u = (s.advance n).emit kind := by
  obtain ⟨v, hv, rfl⟩ := Option.map_eq_some_iff.mp h
  obtain ⟨n, hn, rfl⟩ := Option.map_eq_some_iff.mp hv
  exact ⟨n, hn, rfl⟩

theorem lastMatch_of_one {kind : TokenKind} {f : Char → Bool} {u : Scanner}
    (h : s.token? kind (.one f) = some u) : ∃ c, u.lastMatch = [c] ∧ f c = true := by
  obtain ⟨n, hn, rfl⟩ := token?_eq_some h
  obtain ⟨rfl, c, cs, hrest, hc⟩ := Pattern.one_eq_some hn
  exact ⟨c, by simp [advance, hrest], hc⟩

theorem lastMatch_of_many1 {f : Char → Bool} {n : Nat} (h : Pattern.many1 f s.rest = some n) :
    (s.accept (.many1 f)).lastMatch ≠ [] := by
  rw [accept_of_some h]
  intro hnil
  rcases List.take_eq_nil_iff.mp hnil with rfl | hrest
  · exact (Pattern.moves_one f).seq _ s.rest h
  · rw [hrest] at h
    contradiction

theorem accept_of_takes (last : Text) (h : p.Takes t r) :
    (resume last (t ++ r)).accept p = (resume last (t ++ r)).advance t.length := accept_of_some h

theorem peek?_of_takes (hs : s.rest = t ++ r) (h : p.Takes t r) : s.peek? p = some t := by
  have h : p (t ++ r) = some t.length := h
  simp [peek?, hs, h]

theorem tokenBefore?_of_takes {ahead : Pattern} (hs : s.rest = t ++ r) (h : p.Takes t r)
    (hahead : ahead r = none) (kind : TokenKind) : s.tokenBefore? kind p ahead = none := by
  have h : p (t ++ r) = some t.length := h
  have hr : (t ++ r).drop t.length = r := List.drop_left
  rw [tokenBefore?, acceptBefore?, hs, h, Option.bind_eq_bind, Option.bind_some, hr, hahead]
  rfl

theorem tokenBefore?_of_takes_ahead {ahead : Pattern} {u : Text} (hs : s.rest = t ++ (u ++ r))
    (h : p.Takes t (u ++ r)) (hahead : ahead.Takes u r) (kind : TokenKind) :
    s.tokenBefore? kind p ahead = some ((s.advance t.length).emit kind) := by
  have h : p (t ++ (u ++ r)) = some t.length := h
  have hahead : ahead (u ++ r) = some u.length := hahead
  have hr : (t ++ (u ++ r)).drop t.length = u ++ r := List.drop_left
  rw [tokenBefore?, acceptBefore?, hs, h, Option.bind_eq_bind, Option.bind_some, hr, hahead]
  rfl

theorem tokenChar?_eq_some {c : Char} (hs : s.rest = c :: r) (kind : TokenKind) :
    s.tokenChar? kind c = some ((s.advance 1).emit kind) :=
  token?_of_takes hs (Pattern.takes_char c r) kind

theorem tokenChar?_eq_none {c d : Char} (hs : s.rest = d :: r) (h : d ≠ c) (kind : TokenKind) :
    s.tokenChar? kind c = none :=
  token?_eq_none (hs ▸ Pattern.one_eq_none (Text.stops_cons.mpr (by simpa using h))) kind

theorem tokenText?_eq_none {c d : Char} (hs : s.rest = d :: r) (h : d ≠ c) (kind : TokenKind)
    (t : Text) : s.tokenText? kind (c :: t) = none := by
  simp [tokenText?, acceptText?, accept?, hs, Pattern.literal_eq_none h t r]

private theorem tokenAny?_eq_none {ts : List Text} (h : ∀ t ∈ ts, ¬ t <+: s.rest)
    (kind : TokenKind) : s.tokenAny? kind ts = none := by
  have hnone : s.acceptAny? ts = none := by
    rw [acceptAny?, List.findSome?_eq_none_iff]
    intro t ht
    rw [acceptText?_eq, if_neg fun hboth => h t ht hboth.2]
  rw [tokenAny?, hnone]
  rfl

theorem tokenAny?_eq_none_of_start {ts : List Text} {f : Char → Bool} {c : Char}
    (hts : ts.all (·.head?.any f) = true) (hs : s.rest = c :: r) (hc : f c = false)
    (kind : TokenKind) : s.tokenAny? kind ts = none := by
  apply tokenAny?_eq_none
  intro t ht hstarts
  have hstart := List.all_eq_true.mp hts t ht
  cases t with
  | nil => contradiction
  | cons d ds =>
    rw [hs] at hstarts
    obtain rfl : d = c := (List.cons_prefix_cons.mp hstarts).1
    exact absurd hstart (by simp [hc])

end Scanner

namespace Language

variable {σ : Type} {L : Language σ}

section Step

variable {last : Text} {c : Char} {cs : Text} {st st' : σ} {s : Scanner}

theorem lex_of_shorter (h : L.scan (.resume last (c :: cs)) st = (s, st'))
    (hshorter : s.rest.length < (c :: cs).length) :
    L.lex last (c :: cs) st =
      (s.tokens ++ (L.lex s.lastMatch s.rest st').1, (L.lex s.lastMatch s.rest st').2) := by
  rw [lex, h, dif_pos hshorter]

theorem lex_of_not_shorter (h : L.scan (.resume last (c :: cs)) st = (s, st'))
    (hshorter : ¬ s.rest.length < (c :: cs).length) :
    L.lex last (c :: cs) st =
      (s.tokens ++ ⟨.text, [c]⟩ :: (L.lex [c] cs st').1, (L.lex [c] cs st').2) := by
  rw [lex, h, dif_neg hshorter]

end Step

/-- From a state and behind a last match, the lexer turns a text in front of a rest into the tokens
and goes on behind it from another state and last match. -/
def Advances (L : Language σ) (last : Text) (st : σ) (text : Text) (tokens : List Token)
    (last' : Text) (st' : σ) (rest : Text) : Prop :=
  L.lex last (text ++ rest) st = (tokens ++ (L.lex last' rest st').1, (L.lex last' rest st').2)

variable {last last' last'' text text' rest : Text} {st st' st'' : σ} {tokens tokens' : List Token}

theorem Advances.refl (L : Language σ) (last : Text) (st : σ) (rest : Text) :
    L.Advances last st [] [] last st rest := rfl

theorem Advances.trans (h : L.Advances last st text tokens last' st' (text' ++ rest))
    (h' : L.Advances last' st' text' tokens' last'' st'' rest) :
    L.Advances last st (text ++ text') (tokens ++ tokens') last'' st'' rest := by
  rw [Advances] at h h' ⊢
  rw [List.append_assoc, h, h', List.append_assoc]

theorem advances_step (consumed : Text) (hne : text ≠ [])
    (h : L.scan (.resume last (text ++ rest)) st = (⟨consumed, rest, last', tokens⟩, st')) :
    L.Advances last st text tokens last' st' rest := by
  obtain ⟨c, cs, rfl⟩ := List.exists_cons_of_ne_nil hne
  rw [List.cons_append] at h
  have hshorter : rest.length < (c :: (cs ++ rest)).length := by
    simp only [List.length_cons, List.length_append]
    omega
  rw [Advances, List.cons_append, lex_of_shorter h hshorter]

theorem advances_token {kind : TokenKind} (hne : text ≠ [])
    (h : L.scan (.resume last (text ++ rest)) st =
      (((Scanner.resume last (text ++ rest)).advance text.length).emit kind, st')) :
    L.Advances last st text [⟨kind, text⟩] text st' rest := by
  rw [Scanner.resume, Scanner.advance_emit [] last [] hne rest kind] at h
  exact advances_step _ hne h

/-- A step that takes nothing, from a state that it keeps: the character is plain text. -/
theorem advances_stay {c : Char}
    (h : L.scan (.resume last (c :: rest)) st = (.resume last (c :: rest), st)) :
    L.Advances last st [c] [⟨.text, [c]⟩] [c] st rest := by
  rw [Advances, List.singleton_append, lex_of_not_shorter h (Nat.lt_irrefl _)]
  rfl

theorem Advances.finish (h : L.Advances last st text tokens last' st' []) :
    L.lex last text st = (tokens, st') := by
  rw [Advances, List.append_nil] at h
  rw [h]
  simp [lex]

end Language
end Highlight
