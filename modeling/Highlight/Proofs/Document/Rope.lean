import Highlight.Proofs.Position.Offsets
import Highlight.Selection
/-! # Documents kept in ropes

A document may keep its text in a rope and ask that for lines and their starts. It then gives the
same answers as one kept as its lines, and both are those of the plain text that was set last.
-/
namespace Highlight

variable {ρ : Type}

/-- What a document asks of a rope. Lines come with their line feeds. -/
structure Rope (ρ : Type) where
  ofText : Text → ρ
  chunks : ρ → List Text
  /-- The rope spells a text. -/
  equals : ρ → Text → Bool
  length : ρ → Nat
  lineCount : ρ → Nat
  line : ρ → Nat → Text
  lines : ρ → List Text
  /-- The line of an offset. -/
  lineOf : ρ → Nat → Nat
  /-- The offset where a line starts. -/
  lineStart : ρ → Nat → Nat

/-- The text is cut behind each of its line feeds. The last piece has none and may be empty. -/
inductive Text.Cut : Text → List Text → Prop
  | last {l : Text} (h : '\n' ∉ l) : Cut l [l]
  | feed {l t : Text} {pieces : List Text} (h : '\n' ∉ l) (rest : Cut t pieces) :
    Cut (l ++ '\n' :: t) ((l ++ ['\n']) :: pieces)

/-- What is known of ropes. Nothing is said of lines and offsets that the rope does not have. -/
structure Rope.Lawful (R : Rope ρ) : Prop where
  chunks_flatten : ∀ t, (R.chunks (R.ofText t)).flatten = t
  equals_iff : ∀ t u, R.equals (R.ofText t) u = true ↔ t = u
  length_eq : ∀ t, R.length (R.ofText t) = t.length
  lines_cut : ∀ t, Text.Cut t (R.lines (R.ofText t))
  lineCount_eq : ∀ t, R.lineCount (R.ofText t) = (R.lines (R.ofText t)).length
  line_eq : ∀ t i, i < R.lineCount (R.ofText t) →
    (R.lines (R.ofText t))[i]? = some (R.line (R.ofText t) i)
  lineOf_eq : ∀ t i, i ≤ t.length → R.lineOf (R.ofText t) i = (t.take i).count '\n'
  lineStart_eq : ∀ t i, i < R.lineCount (R.ofText t) →
    R.lineStart (R.ofText t) i = ((R.lines (R.ofText t)).take i).flatten.length

/-- A document that keeps its text in a rope. -/
structure RopeDocument (R : Rope ρ) where
  rope : ρ

namespace RopeDocument

variable {R : Rope ρ}

def ofText (text : Text) : RopeDocument R := ⟨R.ofText text⟩

def setText (_ : RopeDocument R) (text : Text) : RopeDocument R := .ofText text

def toText (d : RopeDocument R) : Text := (R.chunks d.rope).flatten

def hasText (d : RopeDocument R) (text : Text) : Bool := R.equals d.rope text

def length (d : RopeDocument R) : Nat := R.length d.rope

def isEmpty (d : RopeDocument R) : Bool := R.length d.rope == 0

def lineCount (d : RopeDocument R) : Nat := R.lineCount d.rope

def dropFeed (l : Text) : Text := if l.getLast? = some '\n' then l.dropLast else l

def line? (d : RopeDocument R) (index : Nat) : Option Text :=
  if R.lineCount d.rope ≤ index then none else some (dropFeed (R.line d.rope index))

def lines (d : RopeDocument R) : List Text := (R.lines d.rope).map dropFeed

def lineOf (d : RopeDocument R) (index : Nat) : Nat :=
  R.lineOf d.rope (min index (R.length d.rope))

def position (d : RopeDocument R) (index : Nat) : Position :=
  let index := min index (R.length d.rope)
  let line := R.lineOf d.rope index
  ⟨line, index - R.lineStart d.rope line⟩

end RopeDocument

/-- The answers of a document to all that it can be asked. -/
structure DocumentAnswers where
  text : Text
  hasText : Text → Bool
  length : Nat
  isEmpty : Bool
  lines : List Text
  line? : Nat → Option Text
  lineCount : Nat
  position : Nat → Position
  lineOf : Nat → Nat

def Document.answers (d : Document) : DocumentAnswers :=
  ⟨d.toText, d.hasText, d.length, d.isEmpty, d.lines, d.line?, d.lineCount, d.position, d.lineOf⟩

def RopeDocument.answers {R : Rope ρ} (d : RopeDocument R) : DocumentAnswers :=
  ⟨d.toText, d.hasText, d.length, d.isEmpty, d.lines, d.line?, d.lineCount, d.position, d.lineOf⟩

/-- The answers that are read off a plain text. -/
def DocumentAnswers.ofText (text : Text) : DocumentAnswers :=
  let lines := text.splitOn '\n'
  ⟨text, fun t => text == t, text.length, text.length == 0, lines, fun i => lines[i]?, lines.length,
    .ofIndex text, fun i => (Position.ofIndex text i).line⟩

namespace Text.Cut

open RopeDocument (dropFeed)

private theorem dropFeed_of_notMem {l : Text} (h : '\n' ∉ l) : dropFeed l = l := by
  have hlast : ¬ l.getLast? = some '\n' := fun hlast => h (List.mem_of_getLast? hlast)
  rw [dropFeed, if_neg hlast]

private theorem dropFeed_feed (l : Text) : dropFeed (l ++ ['\n']) = l := by
  simp [dropFeed]

variable {text : Text} {pieces : List Text}

private theorem map_dropFeed (h : Cut text pieces) : pieces.map dropFeed = text.lines := by
  induction h with
  | last hl => simp [hl, dropFeed_of_notMem hl]
  | feed hl _ ih => simp [hl, dropFeed_feed, ih]

/-- The offset of a position is that of the start of its line and the column. -/
theorem toIndex_eq (h : Cut text pieces) {p : Position} (hp : p.IsIn text.lines) :
    p.toIndex text = (pieces.take p.line).flatten.length + p.column := by
  induction h generalizing p with
  | last hl =>
    obtain ⟨hline, hcolumn⟩ := hp
    obtain ⟨line, column⟩ := p
    rw [Position.toIndex_of_notMem hl]
    simp only [hl, lines_of_notMem, not_false_eq_true, List.length_singleton,
      Nat.lt_one_iff] at hline
    subst hline
    simpa [hl] using hcolumn
  | @feed l t pieces hl _ ih =>
    obtain ⟨hline, hcolumn⟩ := hp
    obtain ⟨line, column⟩ := p
    cases line with
    | zero =>
      rw [Position.toIndex_feed_zero hl]
      simpa [hl] using hcolumn
    | succ line =>
      have hrest : Position.IsIn ⟨line, column⟩ t.lines :=
        ⟨by simpa [hl] using hline, by simpa [hl] using hcolumn⟩
      have hbelow := Position.toIndex_feed_below hl t ⟨line, column⟩
      rw [Position.below, ih hrest] at hbelow
      rw [hbelow]
      simp only [List.take_succ_cons, List.flatten_cons, List.length_append, List.length_singleton]
      omega

end Text.Cut

private theorem Document.answers_ofText (text : Text) : (ofText text).answers = .ofText text := by
  have hposition := funext (position_ofText text)
  have hline : (ofText text).lineOf = fun i => (Position.ofIndex text i).line :=
    funext fun i => congrArg Position.line (position_ofText text i)
  have hhas : (ofText text).hasText = fun t => text == t :=
    funext fun t => congrArg (· == t) (toText_ofText text)
  rw [answers, DocumentAnswers.ofText, toText_ofText, isEmpty, length_ofText, hposition, hline, hhas,
    ← Text.lines_eq_splitOn]
  rfl

namespace RopeDocument

variable {R : Rope ρ} (h : R.Lawful) (text : Text)
include h

private theorem lineOf_ofText (i : Nat) :
    (ofText text : RopeDocument R).lineOf i = (Position.ofIndex text i).line := by
  rw [lineOf, ofText, h.length_eq, h.lineOf_eq _ _ (Nat.min_le_right _ _), ← Position.line_ofIndex,
    Position.ofIndex_min]

private theorem lines_ofText : (ofText text : RopeDocument R).lines = text.lines :=
  (h.lines_cut text).map_dropFeed

private theorem lineCount_ofText :
    (ofText text : RopeDocument R).lineCount = text.lines.length := by
  rw [lineCount, ofText, h.lineCount_eq, ← (h.lines_cut text).map_dropFeed, List.length_map]

private theorem line?_ofText (i : Nat) :
    (ofText text : RopeDocument R).line? i = text.lines[i]? := by
  have hcount := lineCount_ofText h text
  rw [lineCount] at hcount
  rw [line?]
  split
  · rename_i hi
    rw [List.getElem?_eq_none (by rwa [← hcount])]
  · rename_i hi
    have hline := h.line_eq text i (Nat.not_le.mp hi)
    rw [← (h.lines_cut text).map_dropFeed, List.getElem?_map, hline]
    rfl

private theorem position_ofText (i : Nat) :
    (ofText text : RopeDocument R).position i = Position.ofIndex text i := by
  have hplace := Position.ofIndex_isIn text i
  have hline : R.lineOf (R.ofText text) (min i (R.length (R.ofText text))) =
      (Position.ofIndex text i).line := lineOf_ofText h text i
  have hcount : R.lineCount (R.ofText text) = text.lines.length := lineCount_ofText h text
  have hstart := h.lineStart_eq text _ (hcount ▸ hplace.1)
  -- The offset is the start of its line and the column, so the start leaves the column.
  have hoffset := (h.lines_cut text).toIndex_eq hplace
  rw [Position.toIndex_ofIndex, ← h.length_eq] at hoffset
  simp only [position, ofText, hline, hstart]
  rw [hoffset, Nat.add_sub_cancel_left]

private theorem answers_ofText : (ofText text : RopeDocument R).answers = .ofText text := by
  have hposition := funext (position_ofText h text)
  have hlineOf := funext (lineOf_ofText h text)
  have hline := funext (line?_ofText h text)
  have htext : (ofText text : RopeDocument R).toText = text := h.chunks_flatten text
  have hlength : (ofText text : RopeDocument R).length = text.length := h.length_eq text
  have hempty : (ofText text : RopeDocument R).isEmpty = (text.length == 0) :=
    congrArg (· == 0) (h.length_eq text)
  have hhas : (ofText text : RopeDocument R).hasText = fun t => text == t := by
    funext t
    rw [Bool.eq_iff_iff, beq_iff_eq]
    exact h.equals_iff text t
  rw [answers, DocumentAnswers.ofText, htext, hhas, hlength, hempty, lines_ofText h,
    lineCount_ofText h, hposition, hlineOf, hline, ← Text.lines_eq_splitOn]

end RopeDocument

private theorem foldl_setText {δ : Type} (set : δ → Text → δ) (make : Text → δ)
    (h : ∀ d t, set d t = make t) (first : Text) (later : List Text) :
    later.foldl set (make first) = make (later.getLastD first) := by
  induction later generalizing first with
  | nil => rfl
  | cons t later ih => rw [List.foldl_cons, h, ih, List.getLastD_cons]

/-- A document gives the answers of the plain text that was set last, and so does one that keeps its
text in a rope: the text, its lines, the position of every offset and the line of that position. It
has no line from the number of lines on. The offsets where two lines start, taken as a range, lead
back to the two lines, or to the last one where there are fewer. -/
theorem answers_of_last_text {R : Rope ρ} (h : R.Lawful) (first : Text) (later : List Text) :
    let text := later.getLastD first
    let plain := DocumentAnswers.ofText text
    (later.foldl Document.setText (.ofText first)).answers = plain ∧
      (later.foldl RopeDocument.setText (.ofText first : RopeDocument R)).answers = plain ∧
      (∀ i, plain.line? i = none ↔ plain.lineCount ≤ i) ∧
      ∀ top bottom,
        let range : Selection :=
          .between (Position.toIndex ⟨top, 0⟩ text) (Position.toIndex ⟨bottom, 0⟩ text)
        plain.lineOf range.start = min (min top bottom) (plain.lineCount - 1) ∧
          plain.lineOf range.stop = min (max top bottom) (plain.lineCount - 1) := by
  intro text plain
  refine ⟨?_, ?_, fun i => List.getElem?_eq_none_iff, ?_⟩
  · have hlast : later.foldl Document.setText (.ofText first) = .ofText text :=
      foldl_setText Document.setText Document.ofText (fun _ _ => rfl) first later
    rw [hlast, Document.answers_ofText]
  · have hlast :
        later.foldl RopeDocument.setText (.ofText first : RopeDocument R) = .ofText text :=
      foldl_setText RopeDocument.setText RopeDocument.ofText (fun _ _ => rfl) first later
    rw [hlast, RopeDocument.answers_ofText h]
  · intro top bottom range
    have hcount : plain.lineCount = text.lines.length :=
      congrArg List.length (Text.lines_eq_splitOn text).symm
    have htop := Position.line_start text top
    have hbottom := Position.line_start text bottom
    have hmono := Position.line_ofIndex_monotone text
    rw [hcount]
    constructor
    · have hstart := hmono.map_min (a := Position.toIndex ⟨top, 0⟩ text)
        (b := Position.toIndex ⟨bottom, 0⟩ text)
      simp only [htop, hbottom] at hstart
      exact hstart.trans (by omega)
    · have hstop := hmono.map_max (a := Position.toIndex ⟨top, 0⟩ text)
        (b := Position.toIndex ⟨bottom, 0⟩ text)
      simp only [htop, hbottom] at hstop
      exact hstop.trans (by omega)

namespace Rope

/-- The pieces of a text that ends at each of its line feeds. -/
def pieces : Text → List Text
  | [] => [[]]
  | c :: cs =>
    if c = '\n' then [c] :: pieces cs
    else match pieces cs with
      | [] => [[c]]
      | l :: ls => (c :: l) :: ls

private theorem cut_pieces (text : Text) : Text.Cut text (pieces text) := by
  induction text with
  | nil => exact .last (by simp)
  | cons c cs ih =>
    simp only [pieces]
    by_cases hc : c = '\n'
    · subst c
      exact Text.Cut.feed (l := []) (by simp) ih
    · rw [if_neg hc]
      generalize pieces cs = ps at ih
      cases ih with
      | last h => exact .last (by simp [h, Ne.symm hc])
      | @feed l t ps h rest => exact Text.Cut.feed (l := c :: l) (by simp [h, Ne.symm hc]) rest

/-- A rope in one piece. -/
def flat : Rope Text where
  ofText t := t
  chunks t := [t]
  equals t u := t == u
  length := List.length
  lineCount t := (pieces t).length
  line t i := (pieces t).getD i []
  lines := pieces
  lineOf t i := (t.take i).count '\n'
  lineStart t i := ((pieces t).take i).flatten.length

private theorem flat_lawful : flat.Lawful where
  chunks_flatten t := List.append_nil t
  equals_iff _ _ := beq_iff_eq
  length_eq _ := rfl
  lines_cut := cut_pieces
  lineCount_eq _ := rfl
  line_eq t i hi := by
    simp only [flat] at hi ⊢
    simp [hi]
  lineOf_eq _ _ _ := rfl
  lineStart_eq _ _ _ := rfl

end Rope

/-- A carriage return ends no line, and behind the last line feed there is an empty line. -/
theorem answers_of_last_text_flat :
    let text := ['a', '\r', '\n', '\n']
    let plain := DocumentAnswers.ofText text
    Rope.flat.Lawful ∧ (Document.setText (.ofText []) text).answers = plain ∧
      (RopeDocument.setText (.ofText [] : RopeDocument Rope.flat) text).answers = plain ∧
      plain.lines = [['a', '\r'], [], []] ∧ plain.line? 3 = none ∧
      plain.lineOf (Position.toIndex ⟨1, 0⟩ text) = 1 ∧
      plain.lineOf (Position.toIndex ⟨9, 0⟩ text) = 2 := by
  intro text plain
  obtain ⟨hdocument, hrope, hnone, hrange⟩ := answers_of_last_text Rope.flat_lawful [] [text]
  exact ⟨Rope.flat_lawful, hdocument, hrope, by decide, (hnone 3).mpr (by decide),
    (hrange 1 9).1, (hrange 1 9).2⟩

end Highlight
