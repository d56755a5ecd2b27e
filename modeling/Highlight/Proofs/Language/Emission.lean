import Highlight.Proofs.Language.Advance
/-! # What a step emits

What is true of the tokens of a step and of the state behind it is said of the alternatives of the
step one by one. An alternative that goes through emits what it matched.
-/
namespace Highlight

open Pattern

variable {σ : Type}

/-- If the step goes through, the property holds of its tokens and of the state behind it. -/
def Emits (P : List Token → σ → Prop) (step? : Option (Scanner × σ)) : Prop :=
  ∀ next ∈ step?, P next.1.tokens next.2

namespace Emits

variable {P : List Token → σ → Prop} {first? second? : Option (Scanner × σ)}

private theorem none (P : List Token → σ → Prop) : Emits P Option.none := by
  intro next hnext
  contradiction

theorem orElse (hfirst : Emits P first?) (hsecond : Emits P second?) :
    Emits P (first? <|> second?) := by
  cases first? with
  | none => exact hsecond
  | some next => exact hfirst

theorem getD (hfirst : Emits P first?) {default : Scanner × σ}
    (hdefault : P default.1.tokens default.2) : Emits P (some (first?.getD default)) := by
  cases first? with
  | none =>
    rintro next ⟨⟩
    exact hdefault
  | some next => exact hfirst

theorem either {read? other? : Option Scanner} {k : Scanner → Scanner × σ}
    (hread : Emits P (read?.map k)) (hother : Emits P (other?.map k)) :
    Emits P ((read? <|> other?).map k) := by
  cases read? with
  | none => exact hother
  | some s => exact hread

theorem onlyIf (b : Prop) [Decidable b] {read? : Option Scanner} {st : σ}
    (h : b → Emits P (read?.map (·, st))) :
    Emits P ((if b then read? else Option.none).map (·, st)) := by
  by_cases hb : b
  · simpa [hb] using h hb
  · simpa [hb] using Emits.none P

variable {last cs : Text} {c d : Char} {kind : TokenKind} {p ahead : Pattern}

private theorem tokens_advance_emit {n : Nat} (hn : n ≠ 0) :
    (((Scanner.resume last (c :: cs)).advance n).emit kind).tokens =
      [⟨kind, (c :: cs).take n⟩] := by
  simp [Scanner.emit, Scanner.advance, Scanner.resume, hn]

theorem tokenMatch (hp : p.Moves) (k : Text → σ)
    (h : ∀ n, p (c :: cs) = some n → P [⟨kind, (c :: cs).take n⟩] (k ((c :: cs).take n))) :
    Emits P (((Scanner.resume last (c :: cs)).token? kind p).map fun s => (s, k s.lastMatch)) := by
  intro next hnext
  obtain ⟨u, hu, rfl⟩ := Option.map_eq_some_iff.mp hnext
  obtain ⟨n, hn, rfl⟩ := Scanner.token?_eq_some hu
  have hn : p (c :: cs) = some n := hn
  have hmoves : n ≠ 0 := by
    rintro rfl
    exact hp _ hn
  rw [tokens_advance_emit hmoves, Scanner.emit_lastMatch]
  exact h n hn

theorem token {st : σ} (hp : p.Moves)
    (h : ∀ n, p (c :: cs) = some n → P [⟨kind, (c :: cs).take n⟩] st) :
    Emits P (((Scanner.resume last (c :: cs)).token? kind p).map (·, st)) :=
  tokenMatch hp (fun _ => st) h

theorem tokenChar {st : σ} (h : c = d → P [⟨kind, [d]⟩] st) :
    Emits P (((Scanner.resume last (c :: cs)).tokenChar? kind d).map (·, st)) := by
  refine token (p := char d) (moves_one _) fun n hn => ?_
  obtain ⟨rfl, e, es, hrest, he⟩ := one_eq_some hn
  obtain ⟨rfl, rfl⟩ := List.cons_eq_cons.mp hrest
  obtain rfl := beq_iff_eq.mp he
  exact h rfl

theorem tokenBefore {st : σ} (hp : p.Moves)
    (h : ∀ n, p (c :: cs) = some n → P [⟨kind, (c :: cs).take n⟩] st) :
    Emits P (((Scanner.resume last (c :: cs)).tokenBefore? kind p ahead).map (·, st)) := by
  intro next hnext
  obtain ⟨u, hu, rfl⟩ := Option.map_eq_some_iff.mp hnext
  obtain ⟨n, -, hn, -, rfl⟩ := Scanner.tokenBefore?_eq_some hu
  have hn : p (c :: cs) = some n := hn
  have hmoves : n ≠ 0 := by
    rintro rfl
    exact hp _ hn
  rw [tokens_advance_emit hmoves]
  exact h n hn

theorem tokenText {st : σ} {t : Text} (h : P [⟨kind, t⟩] st) :
    Emits P (((Scanner.resume last (c :: cs)).tokenText? kind t).map (·, st)) := by
  intro next hnext
  obtain ⟨u, hu, rfl⟩ := Option.map_eq_some_iff.mp hnext
  obtain ⟨v, hv, rfl⟩ := Option.map_eq_some_iff.mp hu
  rw [Scanner.acceptText?_eq, Option.ite_none_right_eq_some] at hv
  obtain ⟨⟨hne, hprefix⟩, hv⟩ := hv
  obtain rfl := Option.some.inj hv
  have hprefix : t <+: c :: cs := hprefix
  rw [tokens_advance_emit (by simpa using hne), ← List.prefix_iff_eq_take.mp hprefix]
  exact h

theorem tokenAny {st : σ} {ts : List Text} (hts : ∀ t ∈ ts, t ≠ [])
    (h : ∀ t ∈ ts, P [⟨kind, t⟩] st) :
    Emits P (((Scanner.resume last (c :: cs)).tokenAny? kind ts).map (·, st)) := by
  intro next hnext
  obtain ⟨u, hu, rfl⟩ := Option.map_eq_some_iff.mp hnext
  obtain ⟨v, hv, rfl⟩ := Option.map_eq_some_iff.mp hu
  obtain ⟨earlier, t, later, rfl, hprefix, rfl, -⟩ := Scanner.acceptAny?_eq_some hv
  have ht : t ∈ earlier ++ t :: later := by simp
  have hprefix : t <+: c :: cs := hprefix
  rw [tokens_advance_emit (by simpa using hts t ht), ← List.prefix_iff_eq_take.mp hprefix]
  exact h t ht

theorem accept {st : σ} (htotal : p.Total) (hp : p.Moves) (h : ∀ w, P [⟨kind, w⟩] st) :
    Emits P (some (((Scanner.resume last (c :: cs)).accept p).emit kind, st)) := by
  rintro next ⟨⟩
  obtain ⟨n, hn⟩ := htotal (c :: cs) (by simp)
  have hmoves : n ≠ 0 := by
    rintro rfl
    exact hp _ hn
  rw [Scanner.accept_of_some (s := .resume last (c :: cs)) hn, tokens_advance_emit hmoves]
  exact h _

end Emits
end Highlight
