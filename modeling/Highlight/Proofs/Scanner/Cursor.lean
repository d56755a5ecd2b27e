import Highlight.Proofs.Scanner.Log
import Highlight.Proofs.Text.Bytes
/-! # The scanner in bytes

A scanner may keep its whole line and an offset in bytes into it instead of the two parts of the
line. Then each operation has a size in bytes to go on by, and it fails where a cut of the line
would not be at a boundary. From the start of a line no operation fails, whatever was done before.
-/
namespace Highlight.Scanner

/-- A scanner that counts its line in bytes. -/
structure Cursor where
  line : Text
  position : Nat := 0
  lastMatch : Text := []
  tokens : List Token := []
  deriving DecidableEq

namespace Cursor

def ofLine (line : Text) : Cursor := { line }

def rest? (c : Cursor) : Option Text := (c.line.cut? c.position).map Prod.snd

def advance? (c : Cursor) (size : Nat) : Option Cursor :=
  (c.line.between? c.position (c.position + size)).map fun text =>
    { c with position := c.position + size, lastMatch := text }

/-- Size in bytes of the match of a rule. -/
def matchSize? (rule : Rule) (t : Text) : Option Nat :=
  (rule.pattern t).map fun n => Text.utf8Size (t.take n)

def textSize? (t text : Text) : Option Nat :=
  if !text.isEmpty && text.isPrefixOf t then some (Text.utf8Size text) else none

/-- The last boundary that is not behind an offset. -/
def snap (t : Text) : Nat → Nat
  | 0 => 0
  | n + 1 => if (t.cut? (n + 1)).isSome then n + 1 else snap t n

def verdict? (c : Cursor) : Option Nat → Option (Answer × Cursor)
  | none => some (.verdict false, c)
  | some size => (c.advance? size).map (.verdict true, ·)

def consume? (c : Cursor) (size : Nat) : Option Cursor := do
  let rest ← c.rest?
  c.advance? (snap rest (min size (Text.utf8Size rest)))

def emit (c : Cursor) (kind : TokenKind) : Cursor :=
  if c.lastMatch.isEmpty then c else { c with tokens := c.tokens ++ [⟨kind, c.lastMatch⟩] }

/-- The answer to an operation and the cursor behind it, if every cut is at a boundary. -/
def perform? (c : Cursor) : Operation → Option (Answer × Cursor)
  | .accept rule => do
    let rest ← c.rest?
    c.verdict? (matchSize? rule rest)
  | .acceptBefore rule ahead => do
    let rest ← c.rest?
    match matchSize? rule rest with
    | none => c.verdict? none
    | some size =>
      let (_, behind) ← rest.cut? size
      c.verdict? ((matchSize? ahead behind).map fun _ => size)
  | .acceptText text => do
    let rest ← c.rest?
    c.verdict? (textSize? rest text)
  | .acceptAny texts => do
    let rest ← c.rest?
    c.verdict? (texts.findSome? (textSize? rest))
  | .acceptChar ch => do
    let rest ← c.rest?
    c.verdict? (if rest.head? = some ch then some ch.utf8Size else none)
  | .acceptOne => do
    let rest ← c.rest?
    c.verdict? (rest.head?.map Char.utf8Size)
  | .peek rule => do
    let rest ← c.rest?
    match matchSize? rule rest with
    | none => some (.seen none, c)
    | some size =>
      let (text, _) ← rest.cut? size
      some (.seen (some text), c)
  | .consume size => (c.consume? size).map fun next => (.taken next.lastMatch, next)
  | .emit kind => some (.done, c.emit kind)
  | .embed size tokens =>
    (c.consume? size).map fun next => (.done, { next with tokens := next.tokens ++ tokens })

/-- All operations of a run and the cursor behind them. -/
def run? (c : Cursor) : List Operation → Option (List (Entry Cursor) × Cursor)
  | [] => some ([], c)
  | op :: ops => do
    let (answer, next) ← c.perform? op
    let (entries, last) ← next.run? ops
    some (⟨c, op, answer, next⟩ :: entries, last)

private theorem isGreatest_snap (t : Text) (n : Nat) :
    IsGreatest {m | t.IsBoundary m ∧ m ≤ n} (snap t n) := by
  induction n with
  | zero => exact ⟨⟨⟨[], t, rfl, rfl⟩, Nat.le_refl 0⟩, fun m hm => hm.2⟩
  | succ n ih =>
    rw [snap]
    split
    · rename_i hcut
      exact ⟨⟨Text.isSome_cut?_iff.mp hcut, Nat.le_refl _⟩, fun m hm => hm.2⟩
    · rename_i hcut
      refine ⟨⟨ih.1.1, Nat.le_succ_of_le ih.1.2⟩, ?_⟩
      rintro m ⟨hboundary, hle⟩
      have hne : m ≠ n + 1 := by
        rintro rfl
        exact hcut (Text.isSome_cut?_iff.mpr hboundary)
      exact ih.2 ⟨hboundary, by omega⟩

private theorem snap_eq (t : Text) (n : Nat) :
    snap t (min n (Text.utf8Size t)) = Text.utf8Size (Text.takeBytes n t) := by
  obtain ⟨⟨hsnap, hle⟩, hgreatest⟩ := isGreatest_snap t (min n (Text.utf8Size t))
  obtain ⟨⟨htake, hfits⟩, hlongest⟩ := Text.isGreatest_takeBytes t n
  apply Nat.le_antisymm
  · exact hlongest ⟨hsnap, hle.trans (Nat.min_le_left _ _)⟩
  · exact hgreatest ⟨htake, Nat.le_min.mpr ⟨hfits, htake.le⟩⟩

end Cursor

/-- The same scanner, counting in bytes. -/
def cursor (s : Scanner) : Cursor := ⟨s.line, s.position, s.lastMatch, s.tokens⟩

section Simulation

variable (s : Scanner)

private theorem rest?_cursor : s.cursor.rest? = some s.rest := by
  simp [Cursor.rest?, cursor, line, position, Text.cut?_append]

private theorem advance?_cursor (n : Nat) :
    s.cursor.advance? (Text.utf8Size (s.rest.take n)) = some (s.advance n).cursor := by
  have hline : s.line = s.consumed ++ s.rest.take n ++ s.rest.drop n := by
    rw [line, List.append_assoc, List.take_append_drop]
  have hpart := Text.between?_append s.consumed (s.rest.take n) (s.rest.drop n)
  rw [← hline, Text.utf8Size_append] at hpart
  simp only [Cursor.advance?, cursor, position, hpart, Option.map_some, line_advance]
  simp [advance]

private theorem consume?_cursor (n : Nat) : s.cursor.consume? n = some (s.consume n).cursor := by
  have hprefix := List.prefix_iff_eq_take.mp (Text.takeBytes_prefix n s.rest)
  have hadvance := advance?_cursor s (Text.takeBytes n s.rest).length
  rw [← hprefix] at hadvance
  rw [Cursor.consume?, rest?_cursor, Option.bind_eq_bind, Option.bind_some, Cursor.snap_eq,
    hadvance]
  rfl

/-- The size in bytes of what an operation takes, if it takes anything. -/
def Sized (size? : Option Nat) (next? : Option Scanner) : Prop :=
  ∃ length? : Option Nat, size? = length?.map (fun n => Text.utf8Size (s.rest.take n)) ∧
    next? = length?.map s.advance

variable {s}

private theorem Sized.verdict {size? : Option Nat} {next? : Option Scanner}
    (h : s.Sized size? next?) :
    s.cursor.verdict? size? = some ((s.verdict next?).1, (s.verdict next?).2.cursor) := by
  obtain ⟨length?, rfl, rfl⟩ := h
  cases length? with
  | none => rfl
  | some n =>
    simp only [Option.map_some, Cursor.verdict?, advance?_cursor]
    rfl

private theorem sized_accept (p : Pattern) :
    s.Sized ((p s.rest).map fun n => Text.utf8Size (s.rest.take n)) (s.accept? p) :=
  ⟨p s.rest, rfl, rfl⟩

private theorem sized_acceptText (text : Text) :
    s.Sized (Cursor.textSize? s.rest text) (s.acceptText? text) := by
  rw [acceptText?_eq, Cursor.textSize?]
  by_cases h : text ≠ [] ∧ text <+: s.rest
  · have htake : s.rest.take text.length = text := (List.prefix_iff_eq_take.mp h.2).symm
    refine ⟨some text.length, ?_, by rw [if_pos h, Option.map_some]⟩
    simp [h.1, List.isPrefixOf_iff_prefix.mpr h.2, htake]
  · refine ⟨none, ?_, by rw [if_neg h, Option.map_none]⟩
    simpa using h

private theorem sized_acceptAny (texts : List Text) :
    s.Sized (texts.findSome? (Cursor.textSize? s.rest)) (s.acceptAny? texts) := by
  induction texts with
  | nil => exact ⟨none, rfl, rfl⟩
  | cons text texts ih =>
    rw [acceptAny?, List.findSome?_cons, List.findSome?_cons]
    obtain ⟨length?, hsize, hnext⟩ := sized_acceptText (s := s) text
    rw [hsize, hnext]
    cases length? with
    | none => exact ih
    | some n => exact ⟨some n, rfl, rfl⟩

private theorem sized_acceptChar (c : Char) :
    s.Sized (if s.rest.head? = some c then some c.utf8Size else none) (s.acceptChar? c) := by
  refine ⟨Pattern.char c s.rest, ?_, rfl⟩
  cases hrest : s.rest with
  | nil => rfl
  | cons d cs =>
    by_cases hc : d = c
    · simp [Pattern.char, Pattern.one, hc]
    · simp [Pattern.char, Pattern.one, hc]

private theorem sized_acceptOne : s.Sized (s.rest.head?.map Char.utf8Size) s.acceptOne? := by
  refine ⟨Pattern.one (fun _ => true) s.rest, ?_, rfl⟩
  cases hrest : s.rest with
  | nil => rfl
  | cons d cs => simp [Pattern.one]

private theorem cut?_rest (n : Nat) :
    s.rest.cut? (Text.utf8Size (s.rest.take n)) = some (s.rest.take n, s.rest.drop n) := by
  have hcut := Text.cut?_append (s.rest.take n) (s.rest.drop n)
  rwa [List.take_append_drop] at hcut

/-- No cut of the line fails, and the answers are the same. -/
theorem perform?_cursor (s : Scanner) (op : Operation) :
    s.cursor.perform? op = some ((s.perform op).1, (s.perform op).2.cursor) := by
  cases op with
  | accept rule =>
    rw [Cursor.perform?, rest?_cursor]
    exact (sized_accept rule.pattern).verdict
  | acceptBefore rule ahead =>
    rw [Cursor.perform?, rest?_cursor, Option.bind_eq_bind, Option.bind_some]
    cases hn : rule.pattern s.rest with
    | none =>
      have hfail : s.acceptBefore? rule.pattern ahead.pattern = none := by simp [acceptBefore?, hn]
      rw [perform, hfail]
      simp only [Cursor.matchSize?, hn, Option.map_none]
      rfl
    | some n =>
      have hsized : s.Sized
          ((Cursor.matchSize? ahead (s.rest.drop n)).map fun _ => Text.utf8Size (s.rest.take n))
          (s.acceptBefore? rule.pattern ahead.pattern) := by
        refine ⟨(ahead.pattern (s.rest.drop n)).map fun _ => n, ?_, ?_⟩
        · rw [Cursor.matchSize?, Option.map_map, Option.map_map]
          rfl
        · cases hm : ahead.pattern (s.rest.drop n) with
          | none => simp [acceptBefore?, hn, hm]
          | some m => simp [acceptBefore?, hn, hm]
      simp only [Cursor.matchSize?, hn, Option.map_some, cut?_rest, Option.bind_eq_bind,
        Option.bind_some]
      exact hsized.verdict
  | acceptText text =>
    rw [Cursor.perform?, rest?_cursor]
    exact (sized_acceptText text).verdict
  | acceptAny texts =>
    rw [Cursor.perform?, rest?_cursor]
    exact (sized_acceptAny texts).verdict
  | acceptChar c =>
    rw [Cursor.perform?, rest?_cursor]
    exact (sized_acceptChar c).verdict
  | acceptOne =>
    rw [Cursor.perform?, rest?_cursor]
    exact sized_acceptOne.verdict
  | peek rule =>
    rw [Cursor.perform?, rest?_cursor, Option.bind_eq_bind, Option.bind_some, perform, peek?]
    cases hn : rule.pattern s.rest with
    | none => simp only [Cursor.matchSize?, hn, Option.map_none]
    | some n =>
      simp only [Cursor.matchSize?, hn, Option.map_some, cut?_rest, Option.bind_eq_bind,
        Option.bind_some]
  | consume size =>
    rw [Cursor.perform?, consume?_cursor]
    rfl
  | emit kind =>
    rw [Cursor.perform?, perform, Cursor.emit, Scanner.emit]
    by_cases h : s.lastMatch.isEmpty
    · simp [cursor, h]
    · simp [cursor, h, line, position]
  | embed size tokens =>
    rw [Cursor.perform?, consume?_cursor]
    rfl

private theorem run?_cursor (s : Scanner) (ops : List Operation) :
    s.cursor.run? ops = some ((s.log ops).map (·.map cursor), (s.run ops).cursor) := by
  induction ops generalizing s with
  | nil => rfl
  | cons op ops ih =>
    rw [Cursor.run?, perform?_cursor, Option.bind_eq_bind, Option.bind_some]
    dsimp only
    rw [ih]
    rfl

end Simulation

private theorem Move.between? {s t : Scanner} {op : Operation} {answer : Answer}
    (h : Move s op answer t) (hop : op.takes answer = true) :
    s.line.between? s.position t.position = some t.lastMatch := by
  obtain ⟨hconsumed, hrest⟩ := h.of_takes hop
  rw [line, hrest, ← List.append_assoc, position, position, hconsumed]
  exact Text.between?_append _ _ _

private theorem Move.position_le {s t : Scanner} {op : Operation} {answer : Answer}
    (h : Move s op answer t) : s.position ≤ t.position := by
  cases hop : op.takes answer with
  | false => rw [position, position, (h.of_not_takes hop).1]
  | true =>
    rw [position, position, (h.of_takes hop).1, Text.utf8Size_append]
    exact Nat.le_add_right _ _

private theorem isBoundary_position (s : Scanner) : s.line.IsBoundary s.position :=
  ⟨s.consumed, s.rest, rfl, rfl⟩

/-- Whatever is done with a scanner of a line, no cut of the line fails. The offset never goes back
and is a boundary. The last match is what lies between the offsets of the last operation that has
taken something; all other operations leave it and the offset alone. And where all matches are
accounted for, the tokens spell what lies in front of the offset. -/
theorem run_in_bytes (line : Text) (ops : List Operation) :
    let s := (ofLine line).run ops
    let log := (ofLine line).log ops
    (Cursor.ofLine line).run? ops = some (log.map (·.map cursor), s.cursor) ∧
      (∀ e ∈ log, e.before.position ≤ e.after.position ∧
        e.after.position ≤ Text.utf8Size line ∧ Text.IsBoundary line e.after.position) ∧
      (∀ e ∈ log, e.takes = false →
        e.after.position = e.before.position ∧ e.after.lastMatch = e.before.lastMatch) ∧
      (match (log.filter Entry.takes).getLast? with
        | none => s.lastMatch = []
        | some e => Text.between? line e.before.position e.after.position = some s.lastMatch) ∧
      (Accounted log → Text.between? line 0 s.position = some (Token.spell s.tokens)) := by
  intro s log
  refine ⟨run?_cursor (ofLine line) ops, ?_, ?_, ?_, ?_⟩
  · intro e he
    obtain ⟨hmove, hline⟩ := move_of_mem_log he
    have hboundary := isBoundary_position e.after
    rw [hmove.line_eq, hline] at hboundary
    exact ⟨hmove.position_le, hboundary.le, hboundary⟩
  · intro e he htakes
    obtain ⟨hconsumed, -, hlast⟩ := (move_of_mem_log he).1.of_not_takes htakes
    exact ⟨by rw [position, position, hconsumed], hlast⟩
  · have hrun := lastMatch_run (ofLine line) ops
    cases hlast : (log.filter Entry.takes).getLast? with
    | none =>
      rw [hlast] at hrun
      exact hrun
    | some e =>
      rw [hlast] at hrun
      obtain ⟨he, htakes⟩ := List.mem_filter.mp (List.mem_of_getLast? hlast)
      obtain ⟨hmove, hline⟩ := move_of_mem_log he
      have hbetween := hmove.between? htakes
      rw [hline] at hbetween
      exact hbetween.trans (congrArg some hrun.symm)
  · intro haccounted
    have hspell : Token.spell s.tokens = s.consumed := by
      have htokens : Token.spell s.tokens =
          (List.replicate (emits log) []).flatten ++ written log := spell_run (ofLine line) ops
      have hconsumed : s.consumed = taken log := consumed_run (ofLine line) ops
      rw [htokens, haccounted.written_eq, hconsumed, List.flatten_replicate_nil, List.nil_append]
    have hline : line = [] ++ s.consumed ++ s.rest := (line_run (ofLine line) ops).symm
    have hpart := Text.between?_append [] s.consumed s.rest
    rw [← hline] at hpart
    rw [hspell]
    exact hpart

/-- A cut inside of a character goes back to its start, a match of nothing is emitted as nothing,
and more bytes than there are come with the tokens for them. -/
theorem run_in_bytes_snapped :
    let line : Text := "你好é".toList
    let repeated : Rule := ⟨"x*".toList, some (.many (· == 'x'))⟩
    let tokens : List Token := [⟨.keyword, "好".toList⟩, ⟨.string, "é".toList⟩]
    let ops : List Operation :=
      [.emit .text, .consume 4, .acceptChar 'x', .emit .identifier, .accept repeated, .emit .number,
        .embed 9 tokens]
    let s := (ofLine line).run ops
    Accounted ((ofLine line).log ops) ∧
      Text.between? line 0 s.position = some (Token.spell s.tokens) ∧
      s.position = 8 ∧ s.tokens = ⟨.identifier, "你".toList⟩ :: tokens := by
  intro line repeated tokens ops s
  have haccounted : Accounted ((ofLine line).log ops) := by decide +kernel
  exact ⟨haccounted, (run_in_bytes line ops).2.2.2.2 haccounted, by decide +kernel,
    by decide +kernel⟩

end Highlight.Scanner
