import Highlight.PlainText
import Highlight.Proofs.Document.Lines
import Highlight.Proofs.Session.Calls
import Highlight.Proofs.Session.Run
/-! # The selection of an editor

Whatever selections surfaces report and however the document shrinks, the selection of an editor
lies in its document. A selection that is asked for outside of it is refused before anything
changes.
-/
namespace Highlight

variable {σ : Type}

namespace Selection

/-- The ends are in order and inside of a text of `n` characters. -/
structure IsIn (n : Nat) (s : Selection) : Prop where
  ordered : s.start ≤ s.stop
  inside : s.stop ≤ n

private theorem clamp_isIn (s : Selection) (n : Nat) : IsIn n (s.clamp n) :=
  ⟨start_le_stop_between _ _, stop_clamp_le s n⟩

private theorem clamp_of_le {s : Selection} {n : Nat} (hstart : s.start ≤ n) (hstop : s.stop ≤ n) :
    s.clamp n = .between s.start s.stop := by
  rw [clamp, Nat.min_eq_left hstart, Nat.min_eq_left hstop]

end Selection

def Editor.SelectionFits (e : Editor σ) : Prop := e.selection.IsIn e.document.length

/-- What an event can do to the document and the selection of an editor. -/
inductive SelectionStep (e next : Editor σ) : Prop
  | kept (document : next.document = e.document) (selection : next.selection = e.selection)
  /-- The document may be another one, and the selection is moved into it. -/
  | taken (reported : Selection) (selection : next.selection = reported.clamp next.document.length)

private theorem SelectionStep.fits {e next : Editor σ} (h : SelectionStep e next)
    (he : e.SelectionFits) : next.SelectionFits := by
  cases h with
  | kept document selection => rwa [Editor.SelectionFits, document, selection]
  | taken reported selection =>
    rw [Editor.SelectionFits, selection]
    exact reported.clamp_isIn _

namespace Session

variable [DecidableEq σ] [Fingerprint σ]

private theorem settle_selectionStep (s : Session σ) : SelectionStep s.editor s.settle.editor := by
  unfold settle
  split
  · exact .kept rfl rfl
  · exact .kept rfl rfl

private theorem followEdit_selectionStep (s : Session σ) :
    SelectionStep s.editor s.followEdit.editor := by
  rw [followEdit]
  split
  · exact .taken s.surface.selection rfl
  · exact .taken s.surface.selection rfl

private theorem handle_selectionStep (s : Session σ) (event : Event) :
    SelectionStep s.editor (s.handle event).2.editor := by
  cases event with
  | attach =>
    rw [handle_attach]
    split
    · exact .kept rfl rfl
    · exact .taken s.surface.selection rfl
  | setCode code =>
    rw [handle_setCode]
    split
    · exact .kept rfl rfl
    · exact .taken s.surface.selection rfl
  | textChanged now =>
    rw [handle_textChanged]
    split
    · exact .kept rfl rfl
    · have hfollow := s.followEdit_selectionStep
      cases hfollow with
      | kept document selection => exact .kept document selection
      | taken reported selection => exact .taken reported selection
  | scrolled now =>
    rw [handle_scrolled]
    split
    · exact .kept rfl rfl
    · exact .kept rfl rfl
  | pollIdle now =>
    rw [handle_pollIdle]
    split
    · exact .kept rfl rfl
    · split
      · exact .kept rfl rfl
      · exact .kept rfl rfl
  | flush =>
    rw [handle_flush]
    split
    · exact .kept rfl rfl
    · exact s.settle_selectionStep
  | setSelection asked =>
    rw [handle_setSelection]
    split
    · exact .kept rfl rfl
    · split
      · exact .kept rfl rfl
      · rename_i hfits
        obtain ⟨hstart, hstop⟩ := not_or.mp hfits
        refine .taken asked ?_
        exact (Selection.clamp_of_le (Nat.not_lt.mp hstart) (Nat.not_lt.mp hstop)).symm
  | requestRender mode => exact .kept rfl rfl
  | teardown => exact .kept rfl rfl

end Session

namespace Editor

variable [DecidableEq σ] [Fingerprint σ]

omit [Fingerprint σ] in
private theorem selectionFits_create {settings : Settings} {T : Tokenizer σ} {e : Editor σ}
    (hcreate : create settings T = .ok e) : e.SelectionFits := by
  unfold create at hcreate
  split at hcreate
  · contradiction
  · rw [← Except.ok.inj hcreate]
    exact ⟨Nat.le_refl 0, Nat.le_refl 0⟩

private theorem SelectionFits.after {e : Editor σ} (he : e.SelectionFits) (calls : List (Call σ)) :
    (e.after calls).SelectionFits :=
  after_invariant he (fun e c => (Session.handle_selectionStep ⟨e, c.surface⟩ c.event).fits) calls

/-- After any calls, with surfaces that report any text and any selection, the selection of an
editor is in order and ends no later than its text. A live editor that is asked for a selection
refuses it exactly if one of its ends lies behind the end of the text, and then editor and surface
stay as they were. Otherwise both get the selection with its ends in order, and nothing else
changes. -/
theorem selection_stays_inside {settings : Settings} {T : Tokenizer σ} {e : Editor σ}
    (hcreate : create settings T = .ok e) (calls : List (Call σ)) (surface : Surface σ)
    (asked : Selection) :
    let editor := e.after calls
    let length := editor.code.length
    let result := editor.call ⟨surface, .setSelection asked⟩
    let outside := length < asked.start ∨ length < asked.stop
    (editor.selection.start ≤ editor.selection.stop ∧ editor.selection.stop ≤ length) ∧
      (editor.tornDown = false →
        ((∃ error, result.1 = .refused error) ↔ outside) ∧
        (outside → result =
          (.refused (.invalidSelection asked.start asked.stop length), ⟨editor, surface⟩)) ∧
        (¬ outside →
          let selection : Selection := ⟨min asked.start asked.stop, max asked.start asked.stop⟩
          result = (.done, ⟨{ editor with selection }, { surface with selection }⟩))) := by
  intro editor length result outside
  have hlength : editor.document.length = length := (Document.length_toText _).symm
  have hfits : editor.SelectionFits := (selectionFits_create hcreate).after calls
  refine ⟨⟨hfits.ordered, hlength ▸ hfits.inside⟩, ?_⟩
  intro hlive
  have hresult : result = _ := Session.handle_setSelection ⟨editor, surface⟩ asked
  rw [if_neg (by simp [hlive])] at hresult
  simp only [hlength] at hresult
  by_cases hout : outside
  · rw [if_pos hout] at hresult
    rw [hresult]
    refine ⟨iff_of_true ⟨_, rfl⟩ hout, fun _ => rfl, fun hin => absurd hout hin⟩
  · rw [if_neg hout] at hresult
    rw [hresult]
    refine ⟨iff_of_false ?_ hout, fun h => absurd h hout, fun _ => rfl⟩
    rintro ⟨error, herror⟩
    cases herror

section

-- Editors behind fixed calls are compared as written here, and evaluated only by decision.
attribute [local irreducible] call after

/-- A reversed selection that reaches past the end, and an edit that shortens the document. -/
theorem selection_stays_inside_shortened :
    let e : Editor Unit :=
      { settings := {}
        renderer := .ofTokenizer PlainText.language.tokenizer Cache.defaultCapacity
        idle := { delay := 500000 } }
    let calls : List (Call Unit) := [⟨{ text := ['a', '\n', 'b'], selection := ⟨9, 1⟩ }, .attach⟩,
      ⟨{ text := ['a', 'b'], selection := ⟨9, 1⟩ }, .textChanged 0⟩]
    let editor := e.after calls
    let surface : Surface Unit := { text := ['a', 'b'] }
    Editor.create {} PlainText.language.tokenizer = .ok e ∧ editor.tornDown = false ∧
      editor.code.length = 2 ∧ editor.selection = ⟨1, 2⟩ ∧
      editor.call ⟨surface, .setSelection ⟨3, 0⟩⟩ =
        (.refused (.invalidSelection 3 0 2), ⟨editor, surface⟩) ∧
      editor.call ⟨surface, .setSelection ⟨2, 0⟩⟩ =
        (.done, ⟨{ editor with selection := ⟨0, 2⟩ }, { surface with selection := ⟨0, 2⟩ }⟩) := by
  intro e calls editor surface
  have hcreate : Editor.create {} PlainText.language.tokenizer = .ok e := rfl
  have hlive : editor.tornDown = false := by decide +kernel
  have hlength : editor.code.length = 2 := by decide +kernel
  obtain ⟨-, hout⟩ := selection_stays_inside hcreate calls surface ⟨3, 0⟩
  obtain ⟨-, hin⟩ := selection_stays_inside hcreate calls surface ⟨2, 0⟩
  have hrefused := (hout hlive).2.1 (.inl (by rw [hlength]; decide))
  have hdone := (hin hlive).2.2 (by rw [hlength]; decide)
  rw [hlength] at hrefused
  exact ⟨hcreate, hlive, hlength, by decide +kernel, hrefused, hdone⟩

end

end Editor
end Highlight
