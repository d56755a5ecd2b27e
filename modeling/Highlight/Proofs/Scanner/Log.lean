import Highlight.Proofs.Scanner.Step
/-! # Operations of the scanner

The calls on a scanner, one after the other, with what each of them answers. An operation takes some
of the line, emits the last match, or leaves the scanner as it was; so what the tokens spell in the
end follows from which operations have taken something and how often each match was emitted.
-/
namespace Highlight.Scanner

/-- A call on a scanner. -/
inductive Operation where
  | accept (rule : Rule)
  | acceptBefore (rule ahead : Rule)
  | acceptText (text : Text)
  | acceptAny (texts : List Text)
  | acceptChar (c : Char)
  | acceptOne
  | peek (rule : Rule)
  | consume (size : Nat)
  | emit (kind : TokenKind)
  | embed (size : Nat) (tokens : List Token)

/-- What a call answers. -/
inductive Answer where
  | verdict (success : Bool)
  | seen (text? : Option Text)
  | taken (text : Text)
  | done
  deriving DecidableEq

namespace Operation

def isEmit : Operation → Bool
  | .emit _ => true
  | _ => false

/-- The tokens that come with what the operation takes. -/
def supplied : Operation → List Token
  | .embed _ tokens => tokens
  | _ => []

/-- An operation with this answer has taken something, be it empty. -/
def takes : Operation → Answer → Bool
  | .peek _, _ => false
  | .emit _, _ => false
  | _, .verdict success => success
  | _, _ => true

end Operation

def verdict (s : Scanner) (next? : Option Scanner) : Answer × Scanner :=
  (.verdict next?.isSome, next?.getD s)

/-- The answer to an operation and the scanner behind it. -/
def perform (s : Scanner) : Operation → Answer × Scanner
  | .accept rule => s.verdict (s.accept? rule.pattern)
  | .acceptBefore rule ahead => s.verdict (s.acceptBefore? rule.pattern ahead.pattern)
  | .acceptText text => s.verdict (s.acceptText? text)
  | .acceptAny texts => s.verdict (s.acceptAny? texts)
  | .acceptChar c => s.verdict (s.acceptChar? c)
  | .acceptOne => s.verdict s.acceptOne?
  | .peek rule => (.seen (s.peek? rule.pattern), s)
  | .consume size => (.taken (s.consume size).lastMatch, s.consume size)
  | .emit kind => (.done, s.emit kind)
  | .embed size tokens => (.done, s.embed size tokens)

/-- One performed operation, with the states before and behind it. -/
structure Entry (σ : Type) where
  before : σ
  operation : Operation
  answer : Answer
  after : σ

namespace Entry

variable {σ τ : Type}

def takes (e : Entry σ) : Bool := e.operation.takes e.answer

def map (f : σ → τ) (e : Entry σ) : Entry τ := ⟨f e.before, e.operation, e.answer, f e.after⟩

end Entry

def run (s : Scanner) (ops : List Operation) : Scanner := ops.foldl (fun s op => (s.perform op).2) s

/-- All operations of a run, in their order. -/
def log (s : Scanner) : List Operation → List (Entry Scanner)
  | [] => []
  | op :: ops => ⟨s, op, (s.perform op).1, (s.perform op).2⟩ :: (s.perform op).2.log ops

/-- What an operation can do to a scanner. -/
inductive Move (s : Scanner) : Operation → Answer → Scanner → Prop
  | stays {op answer} (hemit : op.isEmit = false) (htakes : op.takes answer = false) :
      Move s op answer s
  | emits (kind : TokenKind) : Move s (.emit kind) .done (s.emit kind)
  | takes {op answer} (n : Nat) (htakes : op.takes answer = true) :
      Move s op answer { s.advance n with tokens := s.tokens ++ op.supplied }

private theorem Move.advance {op : Operation} {answer : Answer} (htakes : op.takes answer = true)
    (hsupplied : op.supplied = []) (s : Scanner) (n : Nat) : Move s op answer (s.advance n) := by
  have hmove : Move s op answer _ := .takes n htakes
  rw [hsupplied, List.append_nil] at hmove
  exact hmove

private theorem Consuming.move {g : Scanner → Option Scanner} (hg : Consuming g) {op : Operation}
    (hemit : op.isEmit = false) (htakes : ∀ success, op.takes (.verdict success) = success)
    (hsupplied : op.supplied = []) (s : Scanner) :
    Move s op (s.verdict (g s)).1 (s.verdict (g s)).2 := by
  obtain ⟨length?, hlength⟩ := hg
  rw [hlength s]
  cases length? s.lastMatch s.rest with
  | none => exact .stays hemit (htakes false)
  | some n => exact .advance (htakes true) hsupplied s n

private theorem move_perform (s : Scanner) (op : Operation) :
    Move s op (s.perform op).1 (s.perform op).2 := by
  cases op with
  | accept rule => exact (consuming_accept _).move rfl (fun _ => rfl) rfl s
  | acceptBefore rule ahead => exact (consuming_acceptBefore _ _).move rfl (fun _ => rfl) rfl s
  | acceptText text => exact (consuming_acceptText text).move rfl (fun _ => rfl) rfl s
  | acceptAny texts => exact (consuming_acceptAny texts).move rfl (fun _ => rfl) rfl s
  | acceptChar c => exact (consuming_acceptChar c).move rfl (fun _ => rfl) rfl s
  | acceptOne => exact (consuming_accept _).move rfl (fun _ => rfl) rfl s
  | peek rule => exact .stays rfl rfl
  | consume size => exact .advance rfl rfl s _
  | emit kind => exact .emits kind
  | embed size tokens => exact .takes _ rfl

section Moves

variable {s t : Scanner} {op : Operation} {answer : Answer}

theorem Move.line_eq (h : Move s op answer t) : t.line = s.line := by
  cases h with
  | stays => rfl
  | emits kind =>
    unfold emit
    split <;> rfl
  | takes n => exact line_advance s n

theorem Move.of_not_takes (h : Move s op answer t) (hop : op.takes answer = false) :
    t.consumed = s.consumed ∧ t.rest = s.rest ∧ t.lastMatch = s.lastMatch := by
  cases h with
  | stays => exact ⟨rfl, rfl, rfl⟩
  | emits kind =>
    unfold emit
    split <;> exact ⟨rfl, rfl, rfl⟩
  | takes n htakes =>
    rw [hop] at htakes
    contradiction

theorem Move.of_takes (h : Move s op answer t) (hop : op.takes answer = true) :
    t.consumed = s.consumed ++ t.lastMatch ∧ s.rest = t.lastMatch ++ t.rest := by
  cases h with
  | stays _ htakes =>
    rw [hop] at htakes
    contradiction
  | emits kind => contradiction
  | takes n => exact ⟨rfl, (List.take_append_drop n s.rest).symm⟩

end Moves

theorem move_of_mem_log {s : Scanner} {ops : List Operation} {e : Entry Scanner}
    (he : e ∈ s.log ops) :
    Move e.before e.operation e.answer e.after ∧ e.before.line = s.line := by
  induction ops generalizing s with
  | nil => contradiction
  | cons op ops ih =>
    have hmove := move_perform s op
    rcases List.mem_cons.mp he with rfl | he
    · exact ⟨hmove, rfl⟩
    · obtain ⟨hlater, hline⟩ := ih he
      exact ⟨hlater, hline.trans hmove.line_eq⟩

private theorem run_cons (s : Scanner) (op : Operation) (ops : List Operation) :
    s.run (op :: ops) = (s.perform op).2.run ops := rfl

theorem line_run (s : Scanner) (ops : List Operation) : (s.run ops).line = s.line := by
  induction ops generalizing s with
  | nil => rfl
  | cons op ops ih => rw [run_cons, ih, (move_perform s op).line_eq]

section Accounts

variable {σ : Type}

/-- How often the last match is emitted before something else is taken. -/
def emits : List (Entry σ) → Nat
  | [] => 0
  | e :: later => if e.takes then 0 else (if e.operation.isEmit then 1 else 0) + emits later

/-- What was taken, one match after the other. -/
def taken : List (Entry Scanner) → Text
  | [] => []
  | e :: later => if e.takes then e.after.lastMatch ++ taken later else taken later

/-- The same with each match as often as there are tokens for it. -/
def written : List (Entry Scanner) → Text
  | [] => []
  | e :: later =>
    if e.takes then
      Token.spell e.operation.supplied ++
        ((List.replicate (emits later) e.after.lastMatch).flatten ++ written later)
    else written later

private theorem spell_emit (s : Scanner) (kind : TokenKind) :
    Token.spell (s.emit kind).tokens = Token.spell s.tokens ++ s.lastMatch := by
  by_cases h : s.lastMatch = []
  · simp [emit, h]
  · simp [emit, h]

/-- The tokens spell, behind what they did, the last match for each time it is emitted again and
then what is taken and emitted. -/
theorem spell_run (s : Scanner) (ops : List Operation) :
    Token.spell (s.run ops).tokens =
      Token.spell s.tokens ++
        ((List.replicate (emits (s.log ops)) s.lastMatch).flatten ++ written (s.log ops)) := by
  induction ops generalizing s with
  | nil => simp [run, log, emits, written]
  | cons op ops ih =>
    have hmove := move_perform s op
    rw [run_cons, ih, log]
    generalize s.perform op = r at hmove ⊢
    obtain ⟨answer, t⟩ := r
    dsimp only at hmove ⊢
    cases hmove with
    | stays hemit htakes => simp [emits, written, Entry.takes, hemit, htakes]
    | emits kind =>
      -- the last match stays, so it is emitted once more than in the rest of the run
      have hemits : emits (⟨s, .emit kind, .done, s.emit kind⟩ :: (s.emit kind).log ops) =
          1 + emits ((s.emit kind).log ops) := rfl
      rw [hemits, spell_emit, emit_lastMatch, Nat.add_comm 1, List.replicate_succ,
        List.flatten_cons, List.append_assoc, List.append_assoc]
      rfl
    | takes n htakes => simp [emits, written, Entry.takes, htakes, advance]

theorem consumed_run (s : Scanner) (ops : List Operation) :
    (s.run ops).consumed = s.consumed ++ taken (s.log ops) := by
  induction ops generalizing s with
  | nil => simp [run, log, taken]
  | cons op ops ih =>
    have hmove := move_perform s op
    rw [run_cons, ih, log, taken]
    cases htakes : op.takes (s.perform op).1 with
    | false =>
      rw [if_neg (by simp [Entry.takes, htakes]), (hmove.of_not_takes htakes).1]
    | true =>
      rw [if_pos (by simp [Entry.takes, htakes]), (hmove.of_takes htakes).1, List.append_assoc]

/-- The last match is that of the last operation that has taken something. -/
theorem lastMatch_run (s : Scanner) (ops : List Operation) :
    (s.run ops).lastMatch =
      (((s.log ops).filter Entry.takes).getLast?.map (·.after.lastMatch)).getD s.lastMatch := by
  induction ops generalizing s with
  | nil => rfl
  | cons op ops ih =>
    have hmove := move_perform s op
    rw [run_cons, ih, log]
    cases htakes : op.takes (s.perform op).1 with
    | false =>
      rw [List.filter_cons_of_neg (by simp [Entry.takes, htakes]), (hmove.of_not_takes htakes).2.2]
    | true =>
      rw [List.filter_cons_of_pos (by simp [Entry.takes, htakes]), List.getLast?_cons]
      cases ((s.perform op).2.log ops |>.filter Entry.takes).getLast? <;> rfl

/-- A match is accounted for if it is emitted once, or if it is not and the tokens that came with it
spell it. -/
def Entry.Settled (e : Entry Scanner) (later : List (Entry Scanner)) : Prop :=
  (e.operation.supplied = [] ∧ emits later = 1) ∨
    (Token.spell e.operation.supplied = e.after.lastMatch ∧ emits later = 0)

instance (e : Entry Scanner) (later : List (Entry Scanner)) : Decidable (e.Settled later) :=
  inferInstanceAs (Decidable (_ ∨ _))

/-- All matches are accounted for. -/
def Accounted : List (Entry Scanner) → Prop
  | [] => True
  | e :: later => (e.takes = true → e.Settled later) ∧ Accounted later

instance Accounted.decidable : (entries : List (Entry Scanner)) → Decidable (Accounted entries)
  | [] => inferInstanceAs (Decidable True)
  | _ :: later =>
    have := Accounted.decidable later
    inferInstanceAs (Decidable (_ ∧ _))

theorem Accounted.written_eq {entries : List (Entry Scanner)} (h : Accounted entries) :
    written entries = taken entries := by
  induction entries with
  | nil => rfl
  | cons e later ih =>
    obtain ⟨hsettled, hlater⟩ := h
    rw [written, taken, ih hlater]
    cases htakes : e.takes with
    | false => rfl
    | true =>
      rw [if_pos rfl, if_pos rfl]
      rcases hsettled htakes with ⟨hnone, honce⟩ | ⟨hspell, hnever⟩
      · simp [hnone, honce]
      · simp [hspell, hnever]

end Accounts

end Highlight.Scanner
