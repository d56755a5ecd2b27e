import Highlight.Language
import Highlight.Proofs.Scanner.Step
/-! # The loop over a line

The steps of a language, repeated on one scanner until the line is used up. For faithful steps the
loop ends, and its tokens are the line cut into pieces.
-/
namespace Highlight

namespace Language

variable {σ : Type}

/-- One turn of the loop: a step, and where that consumes nothing a character as plain text. -/
def turn (L : Language σ) (s : Scanner) (st : σ) : Scanner × σ :=
  let step := L.scan s st
  if step.1.position = s.position then
    ((step.1.accept (.one fun _ => true)).emit .text, step.2)
  else step

/-- The loop takes a scanner at the start of the rest of a line to one at its end. -/
inductive Loop (L : Language σ) : Scanner → σ → Scanner → σ → Prop
  | done {s : Scanner} {st : σ} (finished : s.isDone = true) : Loop L s st s st
  | next {s t : Scanner} {st st' : σ} (more : s.isDone = false)
      (rest : Loop L (L.turn s st).1 (L.turn s st).2 t st') : Loop L s st t st'

def IsFaithful (L : Language σ) : Prop := ∀ st, Scanner.Faithful fun s => some (L.scan s st)

/-- Reading the line comes to an end, and the tokens are the line in pieces, none of them empty. -/
structure Partitions (L : Language σ) (line : Text) (inbound : σ) : Prop where
  ends : ∃ s st, L.Loop (.ofLine line) (L.beginLine inbound) s st ∧
    L.tokenizeLine line inbound = ⟨s.tokens, L.endLine st⟩
  spells : Token.spell (L.tokenizeLine line inbound).tokens = line
  nonempty : ∀ token ∈ (L.tokenizeLine line inbound).tokens, token.text ≠ []

variable {L : Language σ}

theorem tokenizeLine_nil (L : Language σ) (st : σ) :
    L.tokenizeLine [] st = ⟨[], L.endLine (L.beginLine st)⟩ := by
  rw [tokenizeLine, lex]

theorem tokenizeLine_of_scan {line : Text} (hline : line ≠ []) {st st' : σ} {s : Scanner}
    (hscan : L.scan (.ofLine line) (L.beginLine st) = (s, st')) (hrest : s.rest = []) :
    L.tokenizeLine line st = ⟨s.tokens, L.endLine st'⟩ := by
  obtain ⟨c, cs, rfl⟩ := List.exists_cons_of_ne_nil hline
  have hstep : L.scan (.resume [] (c :: cs)) (L.beginLine st) = (s, st') := hscan
  simp [tokenizeLine, lex, hstep, hrest]

private theorem Loop.isDone {s t : Scanner} {st st' : σ} (h : L.Loop s st t st') :
    t.isDone = true := by
  induction h with
  | done finished => exact finished
  | next _ _ ih => exact ih

theorem IsFaithful.covers (h : L.IsFaithful) {s : Scanner} (hs : s.rest ≠ []) (st : σ) :
    s.Covers (L.scan s st).1 := (h st).covers s _ hs rfl

private theorem IsFaithful.scan_after (h : L.IsFaithful) (s : Scanner) (consumed : Text)
    (tokens : List Token) (st : σ) :
    L.scan (s.after consumed tokens) st =
      ((L.scan s st).1.after consumed tokens, (L.scan s st).2) :=
  Option.some.inj ((h st).blind s consumed tokens)

/-- A step that covers what it consumes gets ahead, or leaves all but the last match alone. -/
theorem covers_cases {s t : Scanner} (h : s.Covers t) :
    (t.position ≠ s.position ∧ t.rest.length < s.rest.length) ∨
      (t.consumed = s.consumed ∧ t.rest = s.rest ∧ t.tokens = s.tokens) := by
  obtain ⟨tokens, hne, hconsumed, hrest, htokens⟩ := h
  cases tokens with
  | nil => exact .inr ⟨by simpa using hconsumed, by simpa using hrest.symm, by simpa using htokens⟩
  | cons token tokens =>
    have hspell : Token.spell (token :: tokens) ≠ [] := by
      intro hnil
      rw [Token.spell_cons, List.append_eq_nil_iff] at hnil
      exact hne token List.mem_cons_self hnil.1
    left
    constructor
    · intro hposition
      rw [Scanner.position, Scanner.position, hconsumed, Text.utf8Size_append] at hposition
      exact hspell (Text.utf8Size_eq_zero.mp (by omega))
    · have hpos := List.length_pos_iff.mpr hspell
      rw [hrest, List.length_append]
      omega

/-- A turn behind some text is the turn of the scanner that knows nothing of it. -/
theorem IsFaithful.turn_eq (h : L.IsFaithful) {s : Scanner} {c : Char} {cs : Text}
    (hs : s.rest = c :: cs) (st : σ) :
    let step := L.scan (.resume s.lastMatch (c :: cs)) st
    (step.1.rest.length < (c :: cs).length ∧
      L.turn s st = (step.1.after s.consumed s.tokens, step.2)) ∨
    (¬ step.1.rest.length < (c :: cs).length ∧ step.1.tokens = [] ∧
      L.turn s st = (⟨s.consumed ++ [c], cs, [c], s.tokens ++ [⟨.text, [c]⟩]⟩, step.2)) := by
  intro step
  have hresume : s = (Scanner.resume s.lastMatch (c :: cs)).after s.consumed s.tokens := by
    simp [Scanner.resume, Scanner.after, ← hs]
  have hscan : L.scan s st = (step.1.after s.consumed s.tokens, step.2) := by
    have hafter := h.scan_after (.resume s.lastMatch (c :: cs)) s.consumed s.tokens st
    rw [← hresume] at hafter
    exact hafter
  have hcovers : (Scanner.resume s.lastMatch (c :: cs)).Covers step.1 :=
    h.covers (by simp [Scanner.resume]) st
  have hsize : (step.1.after s.consumed s.tokens).position = s.position + step.1.position := by
    simp [Scanner.position, Scanner.after]
  rw [turn, hscan]
  rcases covers_cases hcovers with ⟨hmoved, hshorter⟩ | ⟨hconsumed, hrest, htokens⟩
  · left
    have hmoved : step.1.position ≠ 0 := hmoved
    have hne : (step.1.after s.consumed s.tokens).position ≠ s.position := by omega
    exact ⟨hshorter, if_neg hne⟩
  · right
    have hstay : step.1.position = 0 := by
      rw [Scanner.position, hconsumed]
      rfl
    have heq : (step.1.after s.consumed s.tokens).position = s.position := by omega
    have hone : (step.1.after s.consumed s.tokens).accept (.one fun _ => true) =
        (step.1.after s.consumed s.tokens).advance 1 :=
      Scanner.accept_of_some (by simp [hrest, Scanner.resume, Pattern.one])
    refine ⟨by simp [hrest, Scanner.resume], htokens, ?_⟩
    dsimp only
    rw [if_pos heq, hone]
    simp [Scanner.advance, Scanner.emit, Scanner.after, hconsumed, hrest, htokens, Scanner.resume]

private theorem IsFaithful.turn_covers (h : L.IsFaithful) {s : Scanner} (hs : s.rest ≠ [])
    (st : σ) : s.Covers (L.turn s st).1 := by
  have hscan := h.covers hs st
  rw [turn]
  split
  · rename_i hposition
    rcases covers_cases hscan with ⟨hmoved, -⟩ | ⟨-, hrest, -⟩
    · exact absurd hposition hmoved
    · obtain ⟨c, cs, hcons⟩ := List.exists_cons_of_ne_nil hs
      rw [Scanner.accept_of_some (n := 1) (by simp [hrest, hcons, Pattern.one])]
      exact hscan.trans (Scanner.covers_advance_emit _ 1 .text)
  · exact hscan

private theorem Loop.covers (hL : L.IsFaithful) {s t : Scanner} {st st' : σ}
    (h : L.Loop s st t st') : s.Covers t := by
  induction h with
  | done _ => exact .refl _
  | @next s t st st' more _ ih =>
    have hs : s.rest ≠ [] := by simpa [Scanner.isDone] using more
    exact (hL.turn_covers hs st).trans ih

/-- The loop ends, with the tokens and the state that reading the rest of the line answers. -/
theorem IsFaithful.loop_lex (h : L.IsFaithful) (s : Scanner) (st : σ) :
    ∃ t, L.Loop s st t (L.lex s.lastMatch s.rest st).2 ∧
      t.tokens = s.tokens ++ (L.lex s.lastMatch s.rest st).1 := by
  -- A turn shortens the rest of the line, whether it is a step or the one character instead.
  generalize hn : s.rest.length = n
  induction n using Nat.strongRecOn generalizing s st with
  | ind n ih =>
    cases hs : s.rest with
    | nil => exact ⟨s, by simpa [lex] using .done (by simp [Scanner.isDone, hs]), by simp [lex]⟩
    | cons c cs =>
      have hmore : s.isDone = false := by simp [Scanner.isDone, hs]
      have hlength : n = (c :: cs).length := by rw [← hn, hs]
      rcases h.turn_eq hs st with ⟨hshorter, hturn⟩ | ⟨hstays, htokens, hturn⟩
      · obtain ⟨t, hloop, ht⟩ := ih _ (hlength ▸ hshorter) (L.turn s st).1 (L.turn s st).2
          (by rw [hturn]; rfl)
        rw [lex, dif_pos hshorter]
        refine ⟨t, .next hmore ?_, ?_⟩
        · simpa [hturn] using hloop
        · rw [ht, hturn]
          simp [Scanner.after]
      · obtain ⟨t, hloop, ht⟩ := ih cs.length (by simp [hlength]) (L.turn s st).1 (L.turn s st).2
          (by rw [hturn])
        rw [lex, dif_neg hstays]
        refine ⟨t, .next hmore ?_, ?_⟩
        · simpa [hturn] using hloop
        · rw [ht, hturn]
          simp [htokens]

/-- Whatever the line and the state, a language with faithful steps reads it without loss. -/
theorem IsFaithful.partitions (h : L.IsFaithful) (line : Text) (inbound : σ) :
    L.Partitions line inbound := by
  obtain ⟨t, hloop, htokens⟩ := h.loop_lex (.ofLine line) (L.beginLine inbound)
  obtain ⟨tokens, hne, -, hrest, hcovered⟩ := hloop.covers h
  have hdone : t.rest = [] := by simpa [Scanner.isDone] using hloop.isDone
  have hresult : (L.tokenizeLine line inbound).tokens = tokens := by
    have hall : t.tokens = (L.tokenizeLine line inbound).tokens := htokens
    rw [← hall, hcovered]
    rfl
  constructor
  · refine ⟨t, _, hloop, ?_⟩
    rw [htokens]
    rfl
  · rw [hresult]
    simpa [hdone, Scanner.ofLine] using hrest.symm
  · rw [hresult]
    exact hne

end Language
end Highlight
