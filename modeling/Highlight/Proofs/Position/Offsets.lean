import Highlight.Proofs.Document.Lines
import Mathlib.Data.Nat.SuccPred
import Mathlib.Data.Prod.Lex
import Mathlib.Data.Set.Function
import Mathlib.Order.Interval.Set.Monotone
/-! # Offsets and positions

The offsets of a text, its end included, and the positions in its lines are in order and one for
one. Offsets past the end and positions outside of the lines stand for the nearest ones inside.
-/
namespace Highlight

namespace Position

/-- Line before column, as the positions follow each other in a text. -/
instance : Preorder Position := Preorder.lift fun p => toLex (p.line, p.column)

private theorem lt_iff {p q : Position} :
    p < q ↔ p.line < q.line ∨ p.line = q.line ∧ p.column < q.column :=
  Prod.Lex.toLex_lt_toLex

private theorem lt_step (p : Position) (c : Char) : p < p.step c := by
  rw [lt_iff, step]
  split <;> simp

private theorem ofIndex_succ {text : Text} {i : Nat} (h : i < text.length) :
    ofIndex text (i + 1) = (ofIndex text i).step text[i] := by
  rw [ofIndex, List.take_add_one, List.getElem?_eq_getElem h, List.foldl_append]
  rfl

private theorem ofIndex_strictMonoOn (text : Text) :
    StrictMonoOn (ofIndex text) (Set.Iic text.length) := by
  apply strictMonoOn_Iic_of_lt_succ
  intro i hi
  rw [Nat.succ_eq_succ, Nat.succ_eq_add_one, ofIndex_succ hi]
  exact lt_step _ _

theorem ofIndex_min (text : Text) (i : Nat) :
    ofIndex text (min i text.length) = ofIndex text i := by
  simp [ofIndex, ← List.take_eq_take_min]

/-- The same column one line down. -/
def below (p : Position) : Position := ⟨p.line + 1, p.column⟩

private theorem foldl_step_below (p : Position) (t : Text) :
    t.foldl step p.below = (t.foldl step p).below := by
  induction t generalizing p with
  | nil => rfl
  | cons c t ih =>
    have hstep : p.below.step c = (p.step c).below := by
      simp only [step, below]
      split <;> rfl
    rw [List.foldl_cons, List.foldl_cons, hstep, ih]

private theorem foldl_step_of_notMem (p : Position) {l : Text} (h : '\n' ∉ l) :
    l.foldl step p = ⟨p.line, p.column + l.length⟩ := by
  induction l generalizing p with
  | nil => rfl
  | cons c l ih =>
    obtain ⟨hc, hl⟩ : ¬ '\n' = c ∧ '\n' ∉ l := by simpa using h
    rw [List.foldl_cons, ih _ hl, step, if_neg (Ne.symm hc), List.length_cons]
    simp only [Nat.add_assoc, Nat.add_comm 1]

private theorem line_foldl_step (p : Position) (t : Text) :
    (t.foldl step p).line = p.line + t.count '\n' := by
  induction t generalizing p with
  | nil => rfl
  | cons c t ih =>
    rw [List.foldl_cons, ih, step]
    by_cases hc : c = '\n'
    · simp [hc, Nat.add_assoc, Nat.add_comm 1]
    · simp [hc]

theorem line_ofIndex (text : Text) (i : Nat) :
    (ofIndex text i).line = (text.take i).count '\n' := by
  simp [ofIndex, line_foldl_step]

theorem line_ofIndex_monotone (text : Text) : Monotone fun i => (ofIndex text i).line := by
  intro i j hij
  simp only [line_ofIndex]
  exact (List.take_sublist_take_left hij).count_le '\n'

/-- The line and the column, each moved into the lines where it lies outside. -/
def clampTo (p : Position) (lines : List Text) : Position :=
  let line := min p.line (lines.length - 1)
  ⟨line, min p.column (lines.getD line []).length⟩

/-- The lines have a place for the position. The end of a line is one. -/
def IsIn (p : Position) (lines : List Text) : Prop :=
  p.line < lines.length ∧ p.column ≤ (lines.getD p.line []).length

private theorem clampTo_isIn (p : Position) {lines : List Text} (h : lines ≠ []) :
    (p.clampTo lines).IsIn lines := by
  have hpos := List.length_pos_iff.mpr h
  exact ⟨by simp only [clampTo]; omega, Nat.min_le_right _ _⟩

private theorem IsIn.clampTo_eq {p : Position} {lines : List Text} (h : p.IsIn lines) :
    p.clampTo lines = p := by
  have hinside : p.line < lines.length := h.1
  have hline : min p.line (lines.length - 1) = p.line := by omega
  simp only [clampTo, hline, Nat.min_eq_left h.2]

section

/-! ### A line in front of the rest of a text -/

variable {l : Text} (h : '\n' ∉ l) (t : Text)
include h

private theorem ofIndex_of_notMem (i : Nat) : ofIndex l i = ⟨0, min i l.length⟩ := by
  have htake : '\n' ∉ l.take i := fun hmem => h (List.mem_of_mem_take hmem)
  simp [ofIndex, foldl_step_of_notMem _ htake]

private theorem ofIndex_feed_of_le {i : Nat} (hi : i ≤ l.length) :
    ofIndex (l ++ '\n' :: t) i = ⟨0, i⟩ := by
  have hline := ofIndex_of_notMem h i
  rwa [Nat.min_eq_left hi, ofIndex, ← List.take_append_of_le_length hi] at hline

private theorem ofIndex_feed_past (i : Nat) :
    ofIndex (l ++ '\n' :: t) (l.length + 1 + i) = (ofIndex t i).below := by
  have htake : (l ++ '\n' :: t).take (l.length + 1 + i) = (l ++ ['\n']) ++ t.take i := by
    have hpast : ((l ++ ['\n']) ++ t).take ((l ++ ['\n']).length + i) =
        (l ++ ['\n']) ++ t.take i := List.take_length_add_append i
    simpa using hpast
  have hfed : (l ++ ['\n']).foldl step ⟨0, 0⟩ = below ⟨0, 0⟩ := by
    rw [List.foldl_append, foldl_step_of_notMem _ h]
    rfl
  rw [ofIndex, htake, List.foldl_append, hfed, foldl_step_below]
  rfl

theorem toIndex_of_notMem (p : Position) : p.toIndex l = min p.column l.length := by
  simp [toIndex, h, indexInLines]

theorem toIndex_feed_zero (column : Nat) :
    toIndex ⟨0, column⟩ (l ++ '\n' :: t) = min column l.length := by
  obtain ⟨m, ls, hlines⟩ := List.exists_cons_of_ne_nil t.lines_ne_nil
  simp [toIndex, h, hlines, indexInLines]

theorem toIndex_feed_below (p : Position) :
    p.below.toIndex (l ++ '\n' :: t) = l.length + 1 + p.toIndex t := by
  obtain ⟨m, ls, hlines⟩ := List.exists_cons_of_ne_nil t.lines_ne_nil
  simp [toIndex, h, hlines, indexInLines, below]

end

/-- Offset and position lead to each other; one that lies outside of the text comes back as the one
that it stands for. -/
theorem toIndex_ofIndex (text : Text) (i : Nat) :
    (ofIndex text i).toIndex text = min i text.length := by
  induction text using Text.lineInduction generalizing i with
  | line l hl => simp [ofIndex_of_notMem hl, toIndex_of_notMem hl]
  | feed l t hl ih =>
    simp only [List.length_append, List.length_cons]
    rcases Nat.lt_or_ge l.length i with hi | hi
    · obtain ⟨j, rfl⟩ := Nat.exists_eq_add_of_lt hi
      rw [Nat.add_right_comm, ofIndex_feed_past hl, toIndex_feed_below hl, ih]
      omega
    · rw [ofIndex_feed_of_le hl t hi, toIndex_feed_zero hl]
      omega

private theorem ofIndex_toIndex (text : Text) (p : Position) :
    ofIndex text (p.toIndex text) = p.clampTo text.lines := by
  induction text using Text.lineInduction generalizing p with
  | line l hl => simp [ofIndex_of_notMem hl, toIndex_of_notMem hl, hl, clampTo]
  | feed l t hl ih =>
    obtain ⟨line, column⟩ := p
    cases line with
    | zero =>
      rw [toIndex_feed_zero hl, ofIndex_feed_of_le hl t (Nat.min_le_right _ _)]
      simp [hl, clampTo]
    | succ line =>
      have hpos := List.length_pos_iff.mpr t.lines_ne_nil
      have hmin : min (line + 1) t.lines.length = min line (t.lines.length - 1) + 1 := by omega
      have hbelow := toIndex_feed_below hl t ⟨line, column⟩
      rw [below] at hbelow
      rw [hbelow, ofIndex_feed_past hl, ih]
      simp [hl, clampTo, below, hmin]

/-- The position of the offset where a line starts is on that line, or on the last one if there are
fewer. -/
theorem line_start (text : Text) (line : Nat) :
    (ofIndex text (toIndex ⟨line, 0⟩ text)).line = min line (text.lines.length - 1) := by
  rw [ofIndex_toIndex]
  rfl

theorem ofIndex_isIn (text : Text) (i : Nat) : (ofIndex text i).IsIn text.lines := by
  have hback := ofIndex_toIndex text (ofIndex text i)
  rw [toIndex_ofIndex, ofIndex_min] at hback
  rw [hback]
  exact clampTo_isIn _ text.lines_ne_nil

private theorem IsIn.ofIndex_toIndex_eq {text : Text} {p : Position} (h : p.IsIn text.lines) :
    ofIndex text (p.toIndex text) = p := by
  rw [ofIndex_toIndex, h.clampTo_eq]

private theorem IsIn.toIndex_le {text : Text} {p : Position} (h : p.IsIn text.lines) :
    p.toIndex text ≤ text.length := by
  have hback := toIndex_ofIndex text (p.toIndex text)
  rw [h.ofIndex_toIndex_eq] at hback
  omega

/-- The offsets of a text, from its start to its end, and the positions in its lines correspond one
to one and in order, and the two conversions are inverse to each other. An offset past the end has
the position of the end. Any position at all leads back to itself, but with the line moved to the
last one and then the column to the end of that line where they go past. -/
theorem offsets_correspond (text : Text) :
    let lines := text.splitOn '\n'
    let offsets := Set.Iic text.length
    let positions := {p : Position | p.IsIn lines}
    StrictMonoOn (ofIndex text) offsets ∧ Set.BijOn (ofIndex text) offsets positions ∧
      Set.InvOn (fun p => p.toIndex text) (ofIndex text) offsets positions ∧
      (∀ i, ofIndex text (text.length + i) = ofIndex text text.length) ∧
      ∀ p : Position, ofIndex text (p.toIndex text) = p.clampTo lines := by
  intro lines offsets positions
  have hlines : lines = text.lines := (Text.lines_eq_splitOn text).symm
  have hinverse : Set.InvOn (fun p => p.toIndex text) (ofIndex text) offsets positions := by
    constructor
    · intro i hi
      exact (toIndex_ofIndex text i).trans (Nat.min_eq_left hi)
    · intro p hp
      exact IsIn.ofIndex_toIndex_eq (hlines ▸ hp)
  have hinside : Set.MapsTo (ofIndex text) offsets positions := by
    intro i _
    have := ofIndex_isIn text i
    rwa [← hlines] at this
  have hback : Set.MapsTo (fun p : Position => p.toIndex text) positions offsets := by
    intro p hp
    exact IsIn.toIndex_le (hlines ▸ hp)
  refine ⟨ofIndex_strictMonoOn text, hinverse.bijOn hinside hback, hinverse, ?_, ?_⟩
  · intro i
    rw [← ofIndex_min, Nat.min_eq_right (Nat.le_add_right _ _)]
  · intro p
    rw [ofIndex_toIndex, hlines]

end Position

namespace Document

/-- A document and its text have the same positions. -/
theorem position_ofText (t : Text) (i : Nat) : (ofText t).position i = .ofIndex t i := by
  induction t using Text.lineInduction generalizing i with
  | line l hl => simp [position, ofText, hl, positionInLines, Position.ofIndex_of_notMem hl]
  | feed l t hl ih =>
    obtain ⟨m, ls, hlines⟩ := List.exists_cons_of_ne_nil t.lines_ne_nil
    simp only [position, ofText, hlines] at ih
    simp only [position, ofText, Text.lines_append_feed hl, hlines]
    rw [positionInLines]
    · split
      · rename_i hi
        rw [Position.ofIndex_feed_of_le hl t hi]
      · rename_i hi
        obtain ⟨j, rfl⟩ := Nat.exists_eq_add_of_lt (Nat.not_le.mp hi)
        rw [Nat.add_right_comm, Nat.add_sub_cancel_left, ih, Position.ofIndex_feed_past hl]
        rfl
    · simp

theorem lineOf_start (k : Nat) (t : Text) :
    (ofText t).lineOf (Position.toIndex ⟨k, 0⟩ t) = min k (t.lines.length - 1) := by
  rw [lineOf, position_ofText, Position.line_start]

end Document
end Highlight
