import Highlight.Html.Language
/-! # Closing tags of blocks

Where the closing tag of a block is, and what a step inside the block does before it, at it and
where the line has none.
-/
namespace Highlight.Html

/-- The text starts with the closing tag of an element: its name in any case, and behind it nothing
that would go on with the name. -/
def StartsClosing (name text : Text) : Prop :=
  ∃ mark rest, text = mark ++ rest ∧ Text.lowercase mark = '<' :: '/' :: name ∧
    ∀ c ∈ rest.head?, c = '>' ∨ c = '/' ∨ Text.isBlank c = true

/-- The closing tag of an element is somewhere in the line. -/
def Closes (name line : Text) : Prop :=
  ∃ front rest, line = front ++ rest ∧ StartsClosing name rest

theorem beginsClosingTag_iff {name text : Text} :
    beginsClosingTag name text = true ↔ StartsClosing name text := by
  constructor
  · intro h
    obtain ⟨hmark, hrest⟩ := Bool.and_eq_true_iff.mp h
    refine ⟨_, _, (List.take_append_drop ('<' :: '/' :: name).length text).symm,
      beq_iff_eq.mp hmark, ?_⟩
    intro c hc
    simpa [or_assoc] using (Option.all_eq_true _ _).mp hrest c hc
  · rintro ⟨mark, rest, rfl, hmark, hrest⟩
    have hlength : ('<' :: '/' :: name).length = mark.length := by
      rw [← hmark, Text.lowercase, List.length_map]
    have hahead : rest.head?.all (fun c => c == '>' || c == '/' || Text.isBlank c) = true := by
      apply (Option.all_eq_true _ _).mpr
      intro c hc
      simpa [or_assoc] using hrest c hc
    dsimp only [beginsClosingTag]
    rw [hlength, List.take_left, List.drop_left, hmark, hahead, beq_self_eq_true, Bool.and_self]

theorem StartsClosing.ne_nil {name text : Text} (h : StartsClosing name text) : text ≠ [] := by
  obtain ⟨mark, rest, rfl, hmark, -⟩ := h
  intro hnil
  rw [(List.append_eq_nil_iff.mp hnil).1] at hmark
  contradiction

theorem not_closes_nil (name : Text) : ¬ Closes name [] := by
  rintro ⟨front, rest, hline, hrest⟩
  exact hrest.ne_nil (List.append_eq_nil_iff.mp hline.symm).2

theorem closes_cons {name : Text} {c : Char} {cs : Text} :
    Closes name (c :: cs) ↔ StartsClosing name (c :: cs) ∨ Closes name cs := by
  constructor
  · rintro ⟨front, rest, hline, hrest⟩
    cases front with
    | nil =>
      obtain rfl : c :: cs = rest := hline
      exact .inl hrest
    | cons d front => exact .inr ⟨front, rest, List.tail_eq_of_cons_eq hline, hrest⟩
  · rintro (hstarts | ⟨front, rest, rfl, hrest⟩)
    · exact ⟨[], c :: cs, rfl, hstarts⟩
    · exact ⟨c :: front, rest, rfl, hrest⟩

theorem findClosingTag?_eq_none {name line : Text} :
    findClosingTag? name line = none ↔ ¬ Closes name line := by
  induction line with
  | nil => simp [findClosingTag?, not_closes_nil]
  | cons c cs ih =>
    rw [closes_cons, ← beginsClosingTag_iff, not_or, ← ih, findClosingTag?]
    by_cases hbegins : beginsClosingTag name (c :: cs) = true
    · simp [hbegins]
    · simp [hbegins]

section Steps

variable {block : Embedded} {s : Scanner} {st : State}

theorem scanEmbedded_at (h : findClosingTag? block.tagName s.rest = some 0) :
    scanEmbedded block s st = scanMarkup s { st with embedded := none } := by
  simp [scanEmbedded, h]

theorem scanEmbedded_before {n : Nat} (h : findClosingTag? block.tagName s.rest = some (n + 1)) :
    scanEmbedded block s st =
      (s.embed (Text.utf8Size (s.rest.take (n + 1))) (block.tokenize (s.rest.take (n + 1))).1,
        { st with embedded := none }) := by
  have hne : s.rest ≠ [] := by
    intro hnil
    simp [hnil, findClosingTag?] at h
  simp [scanEmbedded, h, hne]

theorem scanEmbedded_open (h : findClosingTag? block.tagName s.rest = none) (hs : s.rest ≠ []) :
    scanEmbedded block s st =
      (s.embed (Text.utf8Size s.rest) (block.tokenize s.rest).1,
        { st with embedded := some (block.tokenize s.rest).2 }) := by
  simp [scanEmbedded, h, hs]

end Steps

end Highlight.Html
