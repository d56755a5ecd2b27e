import Highlight.Document
/-! # Lines

The lines of a text are the text split at its line feeds, and joined they are the text again. A
document holds the text that it was made of, with all of its characters.
-/
namespace Highlight

namespace Text

theorem lines_eq_splitOn (t : Text) : t.lines = t.splitOn '\n' := by
  induction t with
  | nil => rfl
  | cons c cs ih =>
    rw [List.splitOn_cons_eq_if_modifyHead, lines, ih]
    by_cases hc : c = '\n'
    · simp [hc]
    · cases hlines : cs.splitOn '\n' with
      | nil => exact absurd hlines (List.splitOn_ne_nil _ _)
      | cons l ls => simp [hc]

private theorem joinLines_lines (t : Text) : joinLines t.lines = t := by
  rw [lines_eq_splitOn, joinLines]
  exact List.intercalate_splitOn '\n'

@[simp] theorem lines_of_notMem {l : Text} (h : '\n' ∉ l) : l.lines = [l] := by
  rw [lines_eq_splitOn]
  exact List.splitOn_eq_singleton h

@[simp] theorem lines_append_feed {l : Text} (h : '\n' ∉ l) (t : Text) :
    (l ++ '\n' :: t).lines = l :: t.lines := by
  induction l with
  | nil => simp [lines]
  | cons c l ih =>
    obtain ⟨hc, hl⟩ : ¬ '\n' = c ∧ '\n' ∉ l := by simpa using h
    simp [lines, ih hl, Ne.symm hc]

/-- A text is a line, or a line with its line feed and a text behind it. -/
@[elab_as_elim]
theorem lineInduction {motive : Text → Prop} (line : ∀ l, '\n' ∉ l → motive l)
    (feed : ∀ l t, '\n' ∉ l → motive t → motive (l ++ '\n' :: t)) (t : Text) : motive t := by
  -- The part of a line that has been passed grows until its line feed comes.
  have hpassed : ∀ l, '\n' ∉ l → motive (l ++ t) := by
    induction t with
    | nil => simpa using line
    | cons c t ih =>
      intro l hl
      by_cases hc : c = '\n'
      · subst c
        exact feed l t hl (ih [] (by simp))
      · have hlonger := ih (l ++ [c]) (by simp [hl, Ne.symm hc])
        simpa using hlonger
  exact hpassed [] (by simp)

end Text

namespace Document

@[simp] theorem toText_ofText (t : Text) : (ofText t).toText = t := Text.joinLines_lines t

theorem hasText_iff {d : Document} {t : Text} : d.hasText t = true ↔ d.toText = t := beq_iff_eq

theorem length_toText (d : Document) : d.toText.length = d.length := by
  obtain ⟨lines⟩ := d
  simp only [toText, Text.joinLines, length, lineCount]
  induction lines with
  | nil => rfl
  | cons l ls ih =>
    cases ls with
    | nil => simp
    | cons m ls =>
      simp only [List.intercalate_cons_cons, List.length_append, List.foldr_cons,
        List.length_cons, List.length_nil] at ih ⊢
      omega

@[simp] theorem length_ofText (t : Text) : (ofText t).length = t.length := by
  rw [← length_toText, toText_ofText]

end Document
end Highlight
