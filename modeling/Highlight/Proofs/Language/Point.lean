import Highlight.Proofs.Language.Loop
/-! # Points of a document

A point lies behind some lines of a document and some turns of the loop over the next one. What
holds of the tokens and the state at the start, and is kept by every turn and at both ends of every
line, holds at every point, and the tokens are those of the earlier lines and of the line so far.
-/
namespace Highlight

/-- The tokens of a document in a row. -/
def Tokenizer.tokens {σ : Type} (T : Tokenizer σ) (lines : List Text) : List Token :=
  (T.document lines).flatMap LineTokens.tokens

namespace Language

variable {σ : Type} {L : Language σ} {s t : Scanner} {st st' inbound : σ} {line : Text}

/-- What a turn adds to the tokens, and the state behind it. -/
def piece (L : Language σ) (last : Text) (c : Char) (cs : Text) (st : σ) : List Token × σ :=
  let step := L.scan (.resume last (c :: cs)) st
  (if step.1.tokens = [] then [⟨.text, [c]⟩] else step.1.tokens, step.2)

theorem IsFaithful.turn_piece (hL : L.IsFaithful) {c : Char} {cs : Text} (hs : s.rest = c :: cs)
    (st : σ) :
    (L.turn s st).1.tokens = s.tokens ++ (L.piece s.lastMatch c cs st).1 ∧
      (L.turn s st).2 = (L.piece s.lastMatch c cs st).2 := by
  rcases hL.turn_eq hs st with ⟨hshorter, hturn⟩ | ⟨-, htokens, hturn⟩
  · have hne : (L.scan (.resume s.lastMatch (c :: cs)) st).1.tokens ≠ [] := by
      intro hnil
      obtain ⟨tokens, -, -, hrest, htokens⟩ :=
        hL.covers (s := .resume s.lastMatch (c :: cs)) (by simp [Scanner.resume]) st
      have htokens : (L.scan (.resume s.lastMatch (c :: cs)) st).1.tokens = tokens := htokens
      have hsame : c :: cs = Token.spell tokens ++
          (L.scan (.resume s.lastMatch (c :: cs)) st).1.rest := hrest
      rw [← htokens, hnil, Token.spell_nil, List.nil_append] at hsame
      exact absurd (congrArg List.length hsame).symm (Nat.ne_of_lt hshorter)
    rw [hturn, piece]
    exact ⟨by simp [Scanner.after, hne], rfl⟩
  · rw [hturn, piece]
    exact ⟨by simp [htokens], rfl⟩

/-- The points of a line, each with the state there. -/
inductive Reaches (L : Language σ) (inbound : σ) (line : Text) : Scanner → σ → Prop
  | start : Reaches L inbound line (.ofLine line) (L.beginLine inbound)
  | turn {s : Scanner} {st : σ} (before : Reaches L inbound line s st) (more : s.isDone = false) :
      Reaches L inbound line (L.turn s st).1 (L.turn s st).2

theorem Reaches.next (h : L.Reaches inbound line s st) (more : s.isDone = false)
    (hturn : L.turn s st = (t, st')) : L.Reaches inbound line t st' := by
  have hnext := h.turn more
  rwa [hturn] at hnext

private theorem Reaches.loop (h : L.Reaches inbound line s st) (hloop : L.Loop s st t st') :
    L.Reaches inbound line t st' := by
  induction hloop with
  | done _ => exact h
  | next more _ ih => exact ih (h.turn more)

/-- What holds before a document and is kept by all that happens on the way through it. -/
structure Keeps (L : Language σ) (P : List Token → σ → Prop) : Prop where
  initial : P [] L.initial
  beginLine : ∀ {tokens st}, P tokens st → P tokens (L.beginLine st)
  piece : ∀ {tokens last c cs st}, P tokens st →
    P (tokens ++ (L.piece last c cs st).1) (L.piece last c cs st).2
  endLine : ∀ {tokens st}, P tokens st → P tokens (L.endLine st)

namespace Keeps

variable {P : List Token → σ → Prop} {tokens : List Token}

private theorem reaches (h : L.Keeps P) (hL : L.IsFaithful) (hinbound : P tokens inbound)
    (hreaches : L.Reaches inbound line s st) : P (tokens ++ s.tokens) st := by
  induction hreaches with
  | start => simpa [Scanner.ofLine] using h.beginLine hinbound
  | @turn s st _ more ih =>
    have hne : s.rest ≠ [] := by simpa [Scanner.isDone] using more
    obtain ⟨c, cs, hs⟩ := List.exists_cons_of_ne_nil hne
    obtain ⟨htokens, hstate⟩ := hL.turn_piece hs st
    rw [htokens, hstate, ← List.append_assoc]
    exact h.piece ih

private theorem tokenizeLine (h : L.Keeps P) (hL : L.IsFaithful) (hinbound : P tokens inbound)
    (line : Text) :
    P (tokens ++ (L.tokenizeLine line inbound).tokens)
      (L.tokenizeLine line inbound).outbound := by
  obtain ⟨s, st, hloop, hread⟩ := (hL.partitions line inbound).ends
  rw [hread]
  exact h.endLine (h.reaches hL hinbound (Reaches.start.loop hloop))

private theorem behind (h : L.Keeps P) (hL : L.IsFaithful) (lines : List Text) :
    P (L.tokenizer.tokens lines) (L.tokenizer.behind L.initial lines) := by
  have hthread : ∀ {tokens st}, P tokens st →
      P (tokens ++ (L.tokenizer.thread st lines).flatMap LineTokens.tokens)
        (L.tokenizer.behind st lines) := by
    induction lines with
    | nil =>
      intro tokens st hst
      simpa [Tokenizer.thread] using hst
    | cons line lines ih =>
      intro tokens st hst
      have hrest := ih (h.tokenizeLine hL hst line)
      rwa [List.append_assoc] at hrest
  exact hthread h.initial

/-- It holds at every point of every document. -/
theorem point (h : L.Keeps P) (hL : L.IsFaithful) (earlier : List Text)
    (hreaches : L.Reaches (L.tokenizer.behind L.initial earlier) line s st) :
    P (L.tokenizer.tokens earlier ++ s.tokens) st :=
  h.reaches hL (h.behind hL earlier) hreaches

end Keeps
end Language
end Highlight
