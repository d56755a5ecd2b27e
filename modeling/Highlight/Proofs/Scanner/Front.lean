import Highlight.Proofs.Scanner.Take
/-! # Reading in front of a character

A pattern stops at a character if it never goes over it and takes it for the end of the text. What
is built of such patterns reads the text in front of the character as it would read it alone.
-/
namespace Highlight

namespace Pattern

/-- No match has the character in it, and in front of it the matches are those at the end of a text. -/
structure StopsAt (d : Char) (p : Pattern) : Prop where
  within : Within (· != d) p
  same : ∀ t r, p (t ++ d :: r) = p t

variable {d : Char} {p q : Pattern} {f : Char → Bool}

private theorem ne_of_class (h : f d = false) (c : Char) (hc : f c = true) : (c != d) = true := by
  rw [bne_iff_ne]
  rintro rfl
  rw [h] at hc
  contradiction

theorem stopsAt_one (h : f d = false) : StopsAt d (one f) := by
  refine ⟨within_one (ne_of_class h), ?_⟩
  intro t r
  cases t with
  | nil => simp [one, h]
  | cons c cs => rfl

theorem stopsAt_char {c : Char} (h : d ≠ c) : StopsAt d (char c) :=
  stopsAt_one (by simpa using h)

private theorem takeWhile_append_stop (h : f d = false) (t r : Text) :
    (t ++ d :: r).takeWhile f = t.takeWhile f := by
  rw [List.takeWhile_append, List.takeWhile_cons_of_neg (by simp [h]), List.append_nil]
  split
  · rename_i hall
    exact (List.takeWhile_sublist f).eq_of_length hall |>.symm
  · rfl

theorem stopsAt_many (h : f d = false) : StopsAt d (many f) := by
  refine ⟨within_many (ne_of_class h), ?_⟩
  intro t r
  rw [many, takeWhile_append_stop h]
  rfl

theorem StopsAt.seq (hp : StopsAt d p) (hq : StopsAt d q) : StopsAt d (seq p q) := by
  refine ⟨hp.within.seq hq.within, ?_⟩
  intro t r
  rw [Pattern.seq, Pattern.seq, hp.same]
  cases hk : p t with
  | none => rfl
  | some k =>
    have hdrop : (t ++ d :: r).drop k = t.drop k ++ d :: r :=
      List.drop_append_of_le_length (hp.within t k hk).1
    simp only [Option.bind_eq_bind, Option.bind_some, hdrop, hq.same]

theorem stopsAt_many1 (h : f d = false) :
    StopsAt d (many1 f) := (stopsAt_one h).seq (stopsAt_many h)

theorem StopsAt.alt (hp : StopsAt d p) (hq : StopsAt d q) : StopsAt d (alt p q) := by
  refine ⟨hp.within.alt hq.within, ?_⟩
  intro t r
  rw [Pattern.alt, Pattern.alt, hp.same, hq.same]

theorem StopsAt.optional (hp : StopsAt d p) : StopsAt d (optional p) := by
  constructor
  · intro t n hn
    cases hk : p t with
    | none =>
      obtain rfl : 0 = n := by simpa [Pattern.optional, hk] using hn
      simp
    | some k =>
      obtain rfl : k = n := by simpa [Pattern.optional, hk] using hn
      exact hp.within t k hk
  · intro t r
    rw [Pattern.optional, Pattern.optional, hp.same]

theorem stopsAt_all_nil (d : Char) : StopsAt d (all []) := ⟨within_all_nil, fun _ _ => rfl⟩

theorem stopsAt_any_nil (d : Char) : StopsAt d (any []) := ⟨nofun, fun _ _ => rfl⟩

end Pattern

namespace Scanner

open Pattern

/-- The scanner with more text behind the rest of its line. -/
def before (s : Scanner) (r : Text) : Scanner := { s with rest := s.rest ++ r }

@[simp] theorem before_rest (s : Scanner) (r : Text) : (s.before r).rest = s.rest ++ r := rfl

@[simp] theorem before_lastMatch (s : Scanner) (r : Text) :
    (s.before r).lastMatch = s.lastMatch := rfl

theorem emit_before (s : Scanner) (r : Text) (kind : TokenKind) :
    (s.before r).emit kind = (s.emit kind).before r := by
  by_cases h : s.lastMatch = []
  · simp [emit, h]
  · simp [emit, h, before]

variable {s : Scanner} {d : Char} {p : Pattern}

theorem advance_before {n : Nat} (h : n ≤ s.rest.length) (r : Text) :
    (s.before r).advance n = (s.advance n).before r := by
  simp [advance, before, List.take_append_of_le_length h, List.drop_append_of_le_length h]

/-- A step that reads the rest of a line in front of a character as it reads it alone. -/
def StopsAt (d : Char) (f : Scanner → Option Scanner) : Prop :=
  ∀ s r, f (s.before (d :: r)) = (f s).map (·.before (d :: r))

theorem StopsAt.orElse {f g : Scanner → Option Scanner} (hf : StopsAt d f) (hg : StopsAt d g) :
    StopsAt d fun s => f s <|> g s := by
  intro s r
  dsimp only
  rw [hf, hg]
  cases f s <;> rfl

theorem stopsAt_token (hp : p.StopsAt d) (kind : TokenKind) : StopsAt d (·.token? kind p) := by
  intro s r
  dsimp only [token?, accept?]
  rw [before_rest, hp.same]
  cases hn : p s.rest with
  | none => rfl
  | some n => simp [advance_before (hp.within _ n hn).1, emit_before]

theorem stopsAt_tokenBefore {ahead : Pattern} (hp : p.StopsAt d) (hahead : ahead.StopsAt d)
    (kind : TokenKind) : StopsAt d (·.tokenBefore? kind p ahead) := by
  intro s r
  dsimp only [tokenBefore?, acceptBefore?]
  rw [before_rest, hp.same]
  cases hn : p s.rest with
  | none => rfl
  | some n =>
    have hlength := (hp.within _ n hn).1
    have hdrop : (s.rest ++ d :: r).drop n = s.rest.drop n ++ d :: r :=
      List.drop_append_of_le_length hlength
    cases hm : ahead (s.rest.drop n) with
    | none => simp [hdrop, hahead.same, hm]
    | some m => simp [hdrop, hahead.same, hm, advance_before hlength, emit_before]

private theorem prefix_append_stop {t u : Text} (h : d ∉ t) (r : Text) :
    t <+: u ++ d :: r ↔ t <+: u := by
  constructor
  · intro hprefix
    rcases Nat.lt_or_ge u.length t.length with hlt | hle
    · have hover : u ++ [d] <+: t :=
        List.prefix_of_prefix_length_le (by simp) hprefix (by simpa [Nat.succ_le_iff] using hlt)
      exact absurd (hover.subset (by simp)) h
    · exact List.prefix_of_prefix_length_le hprefix (List.prefix_append u _) hle
  · exact fun hprefix => hprefix.trans (List.prefix_append u _)

private theorem acceptAny?_before {ts : List Text} (h : ∀ t ∈ ts, d ∉ t) (r : Text) :
    (s.before (d :: r)).acceptAny? ts = (s.acceptAny? ts).map (·.before (d :: r)) := by
  induction ts with
  | nil => rfl
  | cons t ts ih =>
    have hfirst : (s.before (d :: r)).acceptText? t =
        (s.acceptText? t).map (·.before (d :: r)) := by
      simp only [acceptText?_eq, before_rest, prefix_append_stop (h t List.mem_cons_self)]
      split
      · rename_i ht
        rw [advance_before ht.2.length_le, Option.map_some]
      · rfl
    rw [acceptAny?, acceptAny?, List.findSome?_cons, List.findSome?_cons, hfirst]
    cases s.acceptText? t with
    | some u => rfl
    | none => exact ih fun u hu => h u (List.mem_cons_of_mem t hu)

theorem stopsAt_tokenAny {ts : List Text} (h : ∀ t ∈ ts, d ∉ t) (kind : TokenKind) :
    StopsAt d (·.tokenAny? kind ts) := by
  intro s r
  dsimp only [tokenAny?]
  rw [acceptAny?_before h]
  cases s.acceptAny? ts with
  | none => rfl
  | some u => simp [emit_before]

end Scanner
end Highlight
