import Highlight.Scanner
/-! # Steps that lose nothing

A step of a lexer is faithful if the tokens that it emits spell what it consumes, and if it decides
by the last match and the rest of the line alone. Steps are built from the operations of the
scanner by choice and by change of state, and these keep faithful steps faithful.
-/
namespace Highlight

def Pattern.Total (p : Pattern) : Prop := ∀ t : Text, t ≠ [] → ∃ n, p t = some n

theorem Pattern.total_alt {p q : Char → Bool} (h : ∀ c, p c = true ∨ q c = true) :
    Total (alt (many1 p) (one q)) := by
  intro t ht
  cases t with
  | nil => exact absurd rfl ht
  | cons c cs =>
    rcases h c with hc | hc
    · exact ⟨1 + (cs.takeWhile p).length, by simp [alt, many1, seq, one, many, hc]⟩
    · cases hrun : many1 p (c :: cs) with
      | none => exact ⟨1, by simp [alt, hrun, one, hc]⟩
      | some n => exact ⟨n, by simp [alt, hrun]⟩

namespace Scanner

open Pattern

/-- Later in a line, behind some text and the tokens for it. -/
def after (s : Scanner) (consumed : Text) (tokens : List Token) : Scanner :=
  { s with consumed := consumed ++ s.consumed, tokens := tokens ++ s.tokens }

@[simp] theorem after_rest (s : Scanner) (consumed : Text) (tokens : List Token) :
    (s.after consumed tokens).rest = s.rest := rfl

@[simp] theorem after_lastMatch (s : Scanner) (consumed : Text) (tokens : List Token) :
    (s.after consumed tokens).lastMatch = s.lastMatch := rfl

theorem advance_after (s : Scanner) (consumed : Text) (tokens : List Token) (n : Nat) :
    (s.after consumed tokens).advance n = (s.advance n).after consumed tokens := by
  simp [after, advance]

theorem emit_after (s : Scanner) (consumed : Text) (tokens : List Token) (kind : TokenKind) :
    (s.after consumed tokens).emit kind = (s.emit kind).after consumed tokens := by
  by_cases h : s.lastMatch = []
  · simp [emit, h]
  · simp [emit, h, after]

theorem embed_after (s : Scanner) (consumed : Text) (tokens : List Token) (n : Nat)
    (inner : List Token) :
    (s.after consumed tokens).embed n inner = (s.embed n inner).after consumed tokens := by
  simp [after, embed, consume, advance]

@[simp] theorem emit_rest (s : Scanner) (kind : TokenKind) : (s.emit kind).rest = s.rest := by
  unfold emit
  split <;> rfl

@[simp] theorem emit_lastMatch (s : Scanner) (kind : TokenKind) :
    (s.emit kind).lastMatch = s.lastMatch := by
  unfold emit
  split <;> rfl

/-- Between the two, tokens were emitted that spell what was consumed, and none of them is empty. -/
def Covers (s t : Scanner) : Prop :=
  ∃ tokens : List Token, (∀ token ∈ tokens, token.text ≠ []) ∧
    t.consumed = s.consumed ++ Token.spell tokens ∧ s.rest = Token.spell tokens ++ t.rest ∧
    t.tokens = s.tokens ++ tokens

theorem Covers.refl (s : Scanner) : s.Covers s := ⟨[], by simp, by simp, by simp, by simp⟩

theorem Covers.trans {s t u : Scanner} (h : s.Covers t) (h' : t.Covers u) : s.Covers u := by
  obtain ⟨ts, hne, hconsumed, hrest, htokens⟩ := h
  obtain ⟨ts', hne', hconsumed', hrest', htokens'⟩ := h'
  have hboth : ∀ token ∈ ts ++ ts', token.text ≠ [] := by
    intro token htoken
    rcases List.mem_append.mp htoken with hmem | hmem
    · exact hne token hmem
    · exact hne' token hmem
  refine ⟨ts ++ ts', hboth, ?_, ?_, ?_⟩
  · rw [hconsumed', hconsumed, Token.spell_append, List.append_assoc]
  · rw [hrest, hrest', Token.spell_append, List.append_assoc]
  · rw [htokens', htokens, List.append_assoc]

theorem covers_advance_emit (s : Scanner) (n : Nat) (kind : TokenKind) :
    s.Covers ((s.advance n).emit kind) := by
  by_cases h : s.rest.take n = []
  · have hrest : s.rest = s.rest.drop n := by
      have hsplit := List.take_append_drop n s.rest
      rw [h, List.nil_append] at hsplit
      exact hsplit.symm
    refine ⟨[], by simp, ?_, ?_, ?_⟩
    · simp [emit, advance, h]
    · simpa [emit, advance, h] using hrest
    · simp [emit, advance, h]
  · refine ⟨[⟨kind, s.rest.take n⟩], by simpa using h, ?_, ?_, ?_⟩
    · simp [emit, advance, h]
    · simp [emit, advance, h]
    · simp [emit, advance, h]

theorem embed_eq {s : Scanner} {part rest : Text} (h : s.rest = part ++ rest)
    (tokens : List Token) :
    s.embed part.utf8Size tokens = ⟨s.consumed ++ part, rest, part, s.tokens ++ tokens⟩ := by
  have hpart : Text.takeBytes part.utf8Size s.rest = part := by rw [h, Text.takeBytes_utf8Size]
  simp only [embed, consume, advance, hpart]
  rw [h, List.take_left, List.drop_left]

/-- Text that other tokens cover is taken over with them. -/
theorem covers_embed (s : Scanner) (part : Text) (rest : Text) (h : s.rest = part ++ rest)
    (tokens : List Token) (hne : ∀ token ∈ tokens, token.text ≠ [])
    (hspell : Token.spell tokens = part) : s.Covers (s.embed part.utf8Size tokens) := by
  rw [embed_eq h]
  exact ⟨tokens, hne, by rw [hspell], by rw [hspell, h], rfl⟩

/-- An operation that consumes decides how much by the last match and the rest alone. -/
def Consuming (g : Scanner → Option Scanner) : Prop :=
  ∃ length? : Text → Text → Option Nat,
    ∀ s, g s = (length? s.lastMatch s.rest).map s.advance

theorem consuming_accept (p : Pattern) : Consuming (·.accept? p) :=
  ⟨fun _ rest => p rest, fun _ => rfl⟩

theorem consuming_acceptBefore (p ahead : Pattern) : Consuming (·.acceptBefore? p ahead) := by
  refine ⟨fun _ rest => (p rest).bind fun n => (ahead (rest.drop n)).map fun _ => n, ?_⟩
  intro s
  dsimp only [acceptBefore?]
  cases p s.rest with
  | none => rfl
  | some n =>
    cases hahead : ahead (s.rest.drop n) with
    | none => simp [hahead]
    | some m => simp [hahead]

theorem consuming_acceptText (t : Text) : Consuming (·.acceptText? t) := by
  refine ⟨fun _ rest => if t.isEmpty then none else literal t rest, ?_⟩
  intro s
  by_cases h : t.isEmpty
  · simp [acceptText?, h]
  · simp [acceptText?, h, accept?]

theorem consuming_acceptAny (ts : List Text) : Consuming (·.acceptAny? ts) := by
  induction ts with
  | nil => exact ⟨fun _ _ => none, fun _ => rfl⟩
  | cons t ts ih =>
    obtain ⟨length?, htext⟩ := consuming_acceptText t
    obtain ⟨lengths?, hany⟩ := ih
    refine ⟨fun last rest => length? last rest <|> lengths? last rest, ?_⟩
    intro s
    have hcons : s.acceptAny? (t :: ts) = (s.acceptText? t <|> s.acceptAny? ts) := by
      rw [acceptAny?, List.findSome?_cons]
      cases s.acceptText? t <;> rfl
    dsimp only at htext hany ⊢
    rw [hcons, htext s, hany s]
    cases length? s.lastMatch s.rest <;> rfl

theorem consuming_acceptChar (c : Char) : Consuming (·.acceptChar? c) := consuming_accept (char c)

/-- A step that may fail: what it emits spells what it consumes, and nothing but the last match and
the rest of the line counts. -/
structure Faithful {α : Type} (f : Scanner → Option (Scanner × α)) : Prop where
  covers : ∀ s r, s.rest ≠ [] → f s = some r → s.Covers r.1
  blind : ∀ s consumed tokens,
    f (s.after consumed tokens) = (f s).map fun r => (r.1.after consumed tokens, r.2)

namespace Faithful

variable {α β : Type} {f g : Scanner → Option (Scanner × α)}

theorem congr (hg : Faithful g) (h : ∀ s, f s = g s) : Faithful f := by
  have heq : f = g := funext h
  rw [heq]
  exact hg

theorem fail : Faithful (fun _ => (none : Option (Scanner × α))) := by
  constructor
  · intro s r _ h
    contradiction
  · intro s consumed tokens
    rfl

theorem stay (a : α) : Faithful fun s => some (s, a) := by
  constructor
  · intro s r _ h
    rw [← Option.some.inj h]
    exact .refl s
  · intro s consumed tokens
    rfl

theorem orElse (hf : Faithful f) (hg : Faithful g) : Faithful fun s => f s <|> g s := by
  constructor
  · intro s r hs h
    cases hfs : f s with
    | none => exact hg.covers s r hs (by simpa [hfs] using h)
    | some r' =>
      have heq : r' = r := by simpa [hfs] using h
      exact hf.covers s r hs (hfs.trans (congrArg some heq))
  · intro s consumed tokens
    rw [hf.blind, hg.blind]
    cases f s <;> rfl

theorem ite (b : Prop) [Decidable b] (hf : Faithful f) (hg : Faithful g) :
    Faithful fun s => if b then f s else g s := by
  by_cases hb : b
  · simpa [hb] using hf
  · simpa [hb] using hg

theorem map (hf : Faithful f) (k : α → β) : Faithful fun s => (f s).map fun r => (r.1, k r.2) := by
  constructor
  · intro s r hs h
    obtain ⟨r', hr', rfl⟩ := Option.map_eq_some_iff.mp h
    exact hf.covers s r' hs hr'
  · intro s consumed tokens
    rw [hf.blind]
    cases f s <;> rfl

theorem getD {e : Scanner → Scanner × α} (hf : Faithful f) (he : Faithful fun s => some (e s)) :
    Faithful fun s => some ((f s).getD (e s)) := by
  have heq : ∀ s, some ((f s).getD (e s)) = (f s <|> some (e s)) := by
    intro s
    cases f s <;> rfl
  exact (hf.orElse he).congr heq

/-- A step that does one thing first, and another one where that fails. -/
theorem first {e step : Scanner → Scanner × α} (hf : Faithful f)
    (he : Faithful fun s => some (e s)) (hsome : ∀ s r, f s = some r → step s = r)
    (hnone : ∀ s, f s = none → step s = e s) : Faithful fun s => some (step s) := by
  apply (hf.getD he).congr
  intro s
  cases hfs : f s with
  | none => rw [hnone s hfs, Option.getD_none]
  | some r => rw [hsome s r hfs, Option.getD_some]

end Faithful

theorem faithful_decided {α : Type} (choice? : Text → Text → Option (Nat × TokenKind × α)) :
    Faithful fun s => (choice? s.lastMatch s.rest).map fun choice =>
      ((s.advance choice.1).emit choice.2.1, choice.2.2) := by
  constructor
  · intro s r _ h
    obtain ⟨choice, -, rfl⟩ := Option.map_eq_some_iff.mp h
    exact covers_advance_emit s choice.1 choice.2.1
  · intro s consumed tokens
    rw [after_lastMatch, after_rest]
    cases choice? s.lastMatch s.rest with
    | none => rfl
    | some choice => simp [advance_after, emit_after]

theorem Consuming.emit {α : Type} {g : Scanner → Option Scanner} (h : Consuming g)
    (kind : TokenKind) (k : Text → α) :
    Faithful fun s => ((g s).map (·.emit kind)).map fun t => (t, k t.lastMatch) := by
  obtain ⟨length?, hg⟩ := h
  apply (faithful_decided fun last rest =>
    (length? last rest).map fun n => (n, kind, k (rest.take n))).congr
  intro s
  rw [hg]
  cases length? s.lastMatch s.rest with
  | none => rfl
  | some n => simp [advance]

theorem Faithful.either {α : Type} {g h : Scanner → Option Scanner} (k : Scanner → Scanner × α)
    (hg : Faithful fun s => (g s).map k) (hh : Faithful fun s => (h s).map k) :
    Faithful fun s => (g s <|> h s).map k := by
  have heq : ∀ s, (g s <|> h s).map k = ((g s).map k <|> (h s).map k) := by
    intro s
    cases g s <;> rfl
  exact (hg.orElse hh).congr heq

theorem accept_of_some {s : Scanner} {p : Pattern} {n : Nat} (h : p s.rest = some n) :
    s.accept p = s.advance n := by
  simp [accept, accept?, h]

private theorem accept_after (s : Scanner) (p : Pattern) (consumed : Text) (tokens : List Token) :
    (s.after consumed tokens).accept p = (s.accept p).after consumed tokens := by
  simp only [accept, accept?, after_rest]
  cases p s.rest with
  | none => rfl
  | some n => simp [advance_after]

theorem faithful_accept_emit {α : Type} {p : Pattern} (hp : p.Total) (kind : TokenKind) (a : α) :
    Faithful fun s => some ((s.accept p).emit kind, a) := by
  constructor
  · intro s r hs h
    obtain ⟨n, hn⟩ := hp s.rest hs
    rw [← Option.some.inj h, accept_of_some hn]
    exact covers_advance_emit s n kind
  · intro s consumed tokens
    rw [accept_after, emit_after]
    rfl

theorem tokenBefore?_eq_some {s u : Scanner} {kind : TokenKind} {p ahead : Pattern}
    (h : s.tokenBefore? kind p ahead = some u) :
    ∃ n m, p s.rest = some n ∧ ahead u.rest = some m ∧ u = (s.advance n).emit kind := by
  obtain ⟨v, hv, rfl⟩ := Option.map_eq_some_iff.mp h
  obtain ⟨n, hn, hv⟩ := Option.bind_eq_some_iff.mp hv
  obtain ⟨m, hm, hv⟩ := Option.bind_eq_some_iff.mp hv
  obtain rfl := Option.some.inj hv
  exact ⟨n, m, hn, by simpa [advance] using hm, rfl⟩

theorem acceptText?_eq (s : Scanner) (t : Text) :
    s.acceptText? t = if t ≠ [] ∧ t <+: s.rest then some (s.advance t.length) else none := by
  by_cases hempty : t = []
  · simp [acceptText?, hempty]
  · by_cases hstarts : t <+: s.rest
    · simp [acceptText?, accept?, literal, hempty, hstarts]
    · simp [acceptText?, accept?, literal, hempty, hstarts]

theorem acceptAny?_eq_some {s u : Scanner} {ts : List Text} (h : s.acceptAny? ts = some u) :
    ∃ earlier t later, ts = earlier ++ t :: later ∧ t <+: s.rest ∧ u = s.advance t.length ∧
      ∀ w ∈ earlier, w <+: s.rest → w = [] := by
  obtain ⟨earlier, t, later, hts, ht, hearlier⟩ := List.findSome?_eq_some_iff.mp h
  simp only [acceptText?_eq, Option.ite_none_right_eq_some, Option.some.injEq] at ht
  refine ⟨earlier, t, later, hts, ht.1.2, ht.2.symm, ?_⟩
  intro w hw hstarts
  have hnone := hearlier w hw
  rw [acceptText?_eq] at hnone
  by_cases hempty : w = []
  · exact hempty
  · rw [if_pos ⟨hempty, hstarts⟩] at hnone
    contradiction

theorem faithful_tokenBefore_accept {α : Type} (kind kind' : TokenKind) (p ahead : Pattern)
    (k : Text → Text → α) :
    Faithful fun s => (s.tokenBefore? kind p ahead).map fun t =>
      ((t.accept ahead).emit kind', k t.lastMatch (t.accept ahead).lastMatch) := by
  constructor
  · intro s r _ h
    obtain ⟨t, ht, rfl⟩ := Option.map_eq_some_iff.mp h
    obtain ⟨n, m, -, hahead, rfl⟩ := tokenBefore?_eq_some ht
    rw [accept_of_some hahead]
    exact (covers_advance_emit s n kind).trans (covers_advance_emit _ m kind')
  · intro s consumed tokens
    obtain ⟨length?, hlength⟩ := consuming_acceptBefore p ahead
    dsimp only [tokenBefore?] at hlength ⊢
    rw [hlength, hlength, after_rest, after_lastMatch]
    cases length? s.lastMatch s.rest with
    | none => rfl
    | some n => simp [advance_after, emit_after, accept_after]

end Scanner
end Highlight
