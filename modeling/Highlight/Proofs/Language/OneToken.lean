import Highlight.Proofs.Language.Loop
/-! # One token a step

Where no step emits more than one token, every token of a line is read by a step that starts where
the token does, and that has the token before it as its last match. So what a step says of its token
holds of all tokens of a line.
-/
namespace Highlight

/-- A step that starts without tokens emits at most one. It is the last match then, and has the
property. -/
def EmitsOne {α : Type} (P : Token → Prop) (step? : Option (Scanner × α)) : Prop :=
  ∀ next ∈ step?, next.1.tokens = [] ∨
    ∃ token, next.1.tokens = [token] ∧ next.1.lastMatch = token.text ∧ P token

namespace EmitsOne

variable {α β : Type} {P : Token → Prop} {first? second? : Option (Scanner × α)}

theorem none (P : Token → Prop) : EmitsOne P (Option.none : Option (Scanner × α)) := by
  intro next hnext
  contradiction

theorem orElse (hfirst : EmitsOne P first?) (hsecond : EmitsOne P second?) :
    EmitsOne P (first? <|> second?) := by
  cases first? with
  | none => exact hsecond
  | some next => exact hfirst

theorem getD (hfirst : EmitsOne P first?) {default : Scanner × α}
    (hdefault : EmitsOne P (some default)) : EmitsOne P (some (first?.getD default)) := by
  cases first? with
  | none => exact hdefault
  | some next => exact hfirst

theorem map (h : EmitsOne P first?) (k : α → β) :
    EmitsOne P (first?.map fun next => (next.1, k next.2)) := by
  intro next hnext
  obtain ⟨before, hbefore, rfl⟩ := Option.map_eq_some_iff.mp hnext
  exact h before hbefore

theorem either {read? other? : Option Scanner} (k : Scanner → Scanner × α)
    (hread : EmitsOne P (read?.map k)) (hother : EmitsOne P (other?.map k)) :
    EmitsOne P ((read? <|> other?).map k) := by
  cases read? with
  | none => exact hother
  | some s => exact hread

theorem stay (P : Token → Prop) (last rest : Text) (a : α) :
    EmitsOne P (some (Scanner.resume last rest, a)) := by
  intro next hnext
  obtain rfl := Option.some.inj hnext
  exact .inl rfl

theorem emit {s : Scanner} (hs : s.tokens = []) {kind : TokenKind} (h : P ⟨kind, s.lastMatch⟩)
    (a : α) : EmitsOne P (some (s.emit kind, a)) := by
  intro next hnext
  obtain rfl := Option.some.inj hnext
  by_cases hempty : s.lastMatch = []
  · exact .inl (by simpa [Scanner.emit, hempty] using hs)
  · exact .inr ⟨_, by simp [Scanner.emit, hempty, hs], Scanner.emit_lastMatch s kind, h⟩

theorem of_kind {g : Scanner → Option Scanner} (hg : Scanner.Consuming g) {kind : TokenKind}
    (h : ∀ text, P ⟨kind, text⟩) (last rest : Text) (k : Scanner → α) :
    EmitsOne P (((g (.resume last rest)).map (·.emit kind)).map fun s => (s, k s)) := by
  obtain ⟨length?, hlength⟩ := hg
  rw [hlength]
  cases length? (Scanner.resume last rest).lastMatch (Scanner.resume last rest).rest with
  | none => exact .none P
  | some n => exact .emit rfl (h _) _

theorem accept {kind : TokenKind} (h : ∀ text, P ⟨kind, text⟩) (p : Pattern) (last rest : Text)
    (a : α) : EmitsOne P (some (((Scanner.resume last rest).accept p).emit kind, a)) := by
  apply emit _ (h _)
  rw [Scanner.accept, Scanner.accept?]
  cases p (Scanner.resume last rest).rest <;> rfl

end EmitsOne

namespace Language

variable {σ : Type} {L : Language σ}

variable {P : Text → Text → Token → Prop}

/-- The first token of what is left of a line, and then the rest behind it. -/
theorem IsFaithful.lex_first (hL : L.IsFaithful)
    (step : ∀ last rest st, EmitsOne (P last rest) (some (L.scan (.resume last rest) st)))
    (skip : ∀ last c cs, P last (c :: cs) ⟨.text, [c]⟩) (last : Text) {rest : Text} (hne : rest ≠ [])
    (st : σ) : ∃ token rest' st', rest = token.text ++ rest' ∧
      (L.lex last rest st).1 = token :: (L.lex token.text rest' st').1 ∧ P last rest token := by
  obtain ⟨c, cs, rfl⟩ := List.exists_cons_of_ne_nil hne
  let next := L.scan (.resume last (c :: cs)) st
  obtain ⟨tokens, -, -, hrest, htokens⟩ := hL.covers (s := .resume last (c :: cs)) hne st
  have htokens : next.1.tokens = tokens := htokens
  have hrest : c :: cs = Token.spell tokens ++ next.1.rest := hrest
  by_cases hshorter : next.1.rest.length < (c :: cs).length
  · rcases step last (c :: cs) st next rfl with hnone | ⟨token, hone, hlast, hP⟩
    · rw [← htokens, hnone] at hrest
      exact absurd (congrArg List.length hrest.symm) (Nat.ne_of_lt hshorter)
    · rw [← htokens, hone, Token.spell_cons, Token.spell_nil, List.append_nil] at hrest
      refine ⟨token, next.1.rest, next.2, hrest, ?_, hP⟩
      rw [lex, dif_pos hshorter, ← hlast]
      change next.1.tokens ++ _ = _
      rw [hone]
      rfl
  · have hnil : next.1.tokens = [] := by
      rcases covers_cases (hL.covers (s := .resume last (c :: cs)) hne st) with
        ⟨-, hless⟩ | ⟨-, -, hsame⟩
      · exact absurd hless hshorter
      · exact hsame
    refine ⟨⟨.text, [c]⟩, cs, next.2, rfl, ?_, skip last c cs⟩
    rw [lex, dif_neg hshorter]
    change next.1.tokens ++ _ = _
    rw [hnil]
    rfl

/-- What each step says of its token, of the last match before it and of the text from there on,
holds of all tokens of a line. -/
theorem IsFaithful.lex_token (hL : L.IsFaithful)
    (step : ∀ last rest st, EmitsOne (P last rest) (some (L.scan (.resume last rest) st)))
    (skip : ∀ last c cs, P last (c :: cs) ⟨.text, [c]⟩) {last rest : Text} {st : σ}
    {front back : List Token} {token : Token}
    (h : (L.lex last rest st).1 = front ++ token :: back) :
    P (front.getLast?.elim last Token.text) (rest.drop (Token.spell front).length) token := by
  induction front generalizing last rest st with
  | nil =>
    by_cases hne : rest = []
    · simp [hne, lex] at h
    · obtain ⟨first, rest', st', -, hlex, hP⟩ := hL.lex_first step skip last hne st
      rw [hlex] at h
      rw [← (List.cons_eq_cons.mp h).1]
      exact hP
  | cons first front ih =>
    by_cases hne : rest = []
    · simp [hne, lex] at h
    · obtain ⟨token', rest', st', hrest, hlex, -⟩ := hL.lex_first step skip last hne st
      rw [hlex] at h
      obtain ⟨rfl, hmore⟩ := List.cons_eq_cons.mp h
      have hlater := ih hmore
      rw [hrest, Token.spell_cons, List.length_append, ← List.drop_drop, List.drop_left]
      cases hlast : front.getLast? with
      | none => simpa [List.getLast?_cons, hlast] using hlater
      | some previous => simpa [List.getLast?_cons, hlast] using hlater

end Language
end Highlight
