import Highlight.Proofs.Position.Offsets
import Highlight.Proofs.Renderer.Following
import Highlight.Proofs.Renderer.Soundness
import Highlight.Proofs.Session.Run
/-! # What a surface shows

However an editor is used and its surface changed in between, a render pass leaves the lines of the
document on the surface, and those on the screen and around it are as the tokenizer reads them in
the whole text.
-/
namespace Highlight

variable {σ : Type}

private theorem Viewport.visibleLines_le (v : Viewport) : v.visibleLines.1 ≤ v.visibleLines.2 := by
  unfold visibleLines
  split
  · exact Nat.le_refl 0
  · split
    · exact Nat.le_max_left _ _
    · exact Nat.le_refl 0

namespace Session

private theorem window_last {s : Session σ} (hdocument : s.editor.document = .ofText s.surface.text)
    (hvisible : s.surface.visible? = none) :
    s.window.last = addSize (min s.surface.viewport.visibleLines.2
      (s.surface.text.lines.length - 1)) s.editor.settings.padding := by
  have hle := s.surface.viewport.visibleLines_le
  -- Offsets at line starts come back as lines, so the order of the two offsets does not matter.
  rcases hlines : s.surface.viewport.visibleLines with ⟨first, last⟩
  rw [hlines] at hle
  have hrange : s.surface.visibleRange =
      .between (Position.toIndex ⟨first, 0⟩ s.surface.text)
        (Position.toIndex ⟨last, 0⟩ s.surface.text) := by
    rw [Surface.visibleRange, hvisible, Option.getD_none, Viewport.visibleRange, hlines]
  have hfirst := Document.lineOf_start first s.surface.text
  have hlast := Document.lineOf_start last s.surface.text
  rw [window, hrange, hdocument]
  generalize Position.toIndex ⟨first, 0⟩ s.surface.text = a at hfirst ⊢
  generalize Position.toIndex ⟨last, 0⟩ s.surface.text = b at hlast ⊢
  have hmax : max ((Document.ofText s.surface.text).lineOf (min a b))
      ((Document.ofText s.surface.text).lineOf (max a b)) =
      min last (s.surface.text.lines.length - 1) := by
    rcases Nat.le_total a b with hab | hba
    · rw [Nat.min_eq_left hab, Nat.max_eq_right hab, hfirst, hlast]
      omega
    · rw [Nat.min_eq_right hba, Nat.max_eq_left hba, hfirst, hlast]
      omega
  exact congrArg (addSize · s.editor.settings.padding) hmax

private theorem touch_code (s : Session σ) (now : Nat) :
    (s.touch now).editor.code = s.editor.code := rfl

private theorem touch_text (s : Session σ) (now : Nat) :
    (s.touch now).surface.text = s.surface.text := rfl

private theorem sync_code (s : Session σ) : s.sync.editor.code = s.surface.text := by
  change Document.toText (if _ then _ else _) = _
  split
  · rename_i hsame
    exact Document.hasText_iff.mp hsame
  · exact Document.toText_ofText s.surface.text

/-- What holds of a session at all times: the surface shows the lines of a renderer, which is sound
if the states differ in their fingerprints, and the document is split at all of its line feeds. -/
structure Intact [Fingerprint σ] (settings : Settings) (T : Tokenizer σ) (states : List σ)
    (s : Session σ) : Prop where
  faithful : s.display.Faithful
  sound : Fingerprint.Separates states → s.editor.renderer.Sound states
  settings_eq : s.editor.settings = settings
  tokenizer_eq : s.editor.renderer.tokenizer = T
  document_eq : s.editor.document = .ofText s.editor.code

/-- What holds behind a pass: there is a line for each line of the document, and up to the end of
the window the lines are up to date. -/
structure Rendered [Fingerprint σ] (settings : Settings) (T : Tokenizer σ) (states : List σ)
    (s : Session σ) : Prop extends Intact settings T states s where
  texts : s.editor.renderer.lines.map Line.text = s.editor.document.lines
  current : ∀ (i : Nat) (l : Line σ), s.editor.renderer.lines[i]? = some l → i ≤ s.window.last →
    l.dirty = false ∧ (Fingerprint.Separates states →
      (T.document s.editor.document.lines)[i]? = some l.result)

section

variable [Fingerprint σ] {settings : Settings} {T : Tokenizer σ} {states : List σ}
  {s t : Session σ}

private theorem Intact.rests (h : Intact settings T states s) (hrests : Rests s t) :
    Intact settings T states t := by
  constructor
  · rw [display, hrests.renderer, hrests.rendered]
    exact h.faithful
  · rw [hrests.renderer]
    exact h.sound
  · rw [hrests.settings]
    exact h.settings_eq
  · rw [hrests.renderer]
    exact h.tokenizer_eq
  · rw [Editor.code, hrests.document]
    exact h.document_eq

private theorem Intact.load (h : Intact settings T states s) (code : Text) :
    Intact settings T states (s.load code) := by
  have hdocument : Document.ofText code = .ofText (Document.ofText code).toText := by
    rw [Document.toText_ofText]
  exact ⟨h.faithful, h.sound, h.settings_eq, h.tokenizer_eq, hdocument⟩

private theorem Intact.takeSelection (h : Intact settings T states s) :
    Intact settings T states s.takeSelection :=
  h.rests ⟨rfl, rfl, rfl, rfl, rfl⟩

private theorem Rendered.touch (h : Rendered settings T states s) (now : Nat) :
    Rendered settings T states (s.touch now) :=
  ⟨⟨h.faithful, h.sound, h.settings_eq, h.tokenizer_eq, h.document_eq⟩, h.texts, h.current⟩

private theorem Intact.sync (h : Intact settings T states s) : Intact settings T states s.sync := by
  refine ⟨h.faithful, h.sound, h.settings_eq, h.tokenizer_eq, ?_⟩
  change (if _ then _ else _) = Document.ofText (Document.toText (if _ then _ else _))
  split
  · exact h.document_eq
  · rw [Document.toText_ofText]

private theorem Intact.shown_map (h : Intact settings T states s) {α : Type} (f : Line σ → α)
    (hf : ∀ l, f l.markDirty = f l) :
    s.surface.rendered.map f = s.editor.renderer.lines.map f := by
  rw [← List.forall₂_eq_eq_eq, List.forall₂_map_left_iff, List.forall₂_map_right_iff]
  apply h.faithful.shows.imp
  intro shown line hshows
  rcases hshows with rfl | rfl
  · rfl
  · exact (hf shown).symm

end

variable [DecidableEq σ] [Fingerprint σ] {settings : Settings} {T : Tokenizer σ} {states : List σ}
  {s t : Session σ}

/-- The move runs a render pass. -/
def runsPass (s : Session σ) : Move → Bool
  | .change _ => false
  | .event event => s.passes event

/-- The states that readings of the texts go through that the moves render. -/
def statesMet (s : Session σ) : List Move → List σ
  | [] => []
  | m :: moves =>
    (if s.runsPass m then s.editor.renderer.tokenizer.states (s.move m).editor.document.lines
      else []) ++ (s.move m).statesMet moves

private theorem statesMet_append (s : Session σ) (moves later : List Move) :
    s.statesMet (moves ++ later) = s.statesMet moves ++ (s.run moves).statesMet later := by
  induction moves generalizing s with
  | nil => rfl
  | cons m moves ih =>
    rw [List.cons_append, statesMet, ih, statesMet, List.append_assoc]
    rfl

private theorem intact_create (hcreate : Editor.create settings T = .ok s.editor)
    (hempty : s.surface.rendered = []) : Intact settings T states s := by
  unfold Editor.create at hcreate
  split at hcreate
  · contradiction
  · have heditor := Except.ok.inj hcreate
    constructor
    · rw [display, hempty, ← heditor]
      exact Display.faithful_start T settings.cacheCapacity
    · intro _
      rw [← heditor]
      exact Renderer.sound_ofTokenizer T settings.cacheCapacity
    · rw [← heditor]
    · rw [← heditor]
      rfl
    · rw [← heditor]
      rfl

@[simp] theorem render_text (s : Session σ) (mode : RenderMode) :
    (s.render mode).surface.text = s.surface.text := by
  unfold render
  dsimp only
  split <;> rfl

@[simp] theorem settle_text (s : Session σ) : s.settle.surface.text = s.surface.text := by
  unfold settle
  split
  · rfl
  · rw [render_text]

private theorem render_window (s : Session σ) (mode : RenderMode) :
    (s.render mode).window = s.window := by
  have hrange : (s.render mode).surface.visibleRange = s.surface.visibleRange := by
    unfold render
    dsimp only
    split <;> rfl
  rw [window, hrange]
  rfl

private theorem Intact.render (h : Intact settings T states s)
    (hmet : T.states s.editor.document.lines ⊆ states) (mode : RenderMode) :
    Rendered settings T states (s.render mode) := by
  have hfaithful : (s.render mode).display.Faithful := by
    rw [display_render]
    exact h.faithful.handle _
  have hmet : s.editor.renderer.tokenizer.states s.editor.document.lines ⊆ states := by
    rw [h.tokenizer_eq]
    exact hmet
  constructor
  · have hsound := fun hsep => (h.sound hsep).render hsep hmet s.window mode
    exact ⟨hfaithful, hsound, h.settings_eq, h.tokenizer_eq, h.document_eq⟩
  · exact s.editor.renderer.render_texts s.editor.document.lines s.window mode
  · intro i l hl hi
    rw [render_window] at hi
    constructor
    · exact s.editor.renderer.render_clean s.editor.document.lines s.window mode i l hl (.inr hi)
    · intro hsep
      rw [← h.tokenizer_eq]
      exact (h.sound hsep).render_current hsep hmet hl (.inr hi)

private theorem Intact.settle (h : Intact settings T states s)
    (hmet : T.states s.editor.document.lines ⊆ states)
    (hpending : s.editor.pending.isSome = true) : Rendered settings T states s.settle := by
  obtain ⟨mode, hmode⟩ := Option.isSome_iff_exists.mp hpending
  have hasked : Intact settings T states { s with editor := { s.editor with pending := none } } :=
    h.rests ⟨rfl, rfl, rfl, rfl, rfl⟩
  rw [Session.settle, hmode]
  exact hasked.render hmet mode

private theorem Intact.refresh (h : Intact settings T states s)
    (hmet : T.states s.editor.document.lines ⊆ states) (mode : RenderMode) :
    Rendered settings T states (s.refresh mode) := by
  have hasked : Intact settings T states { s with editor := s.editor.request mode } :=
    h.rests ⟨rfl, rfl, rfl, rfl, rfl⟩
  exact hasked.settle hmet rfl

private theorem Intact.markDirtyFrom (h : Intact settings T states s) (line : Nat) :
    Intact settings T states { s with editor := s.editor.markDirtyFrom line } := by
  have hfaithful := h.faithful.handle (.markDirtyFrom line)
  have hsound := fun hsep => (h.sound hsep).markDirtyFrom line
  exact ⟨hfaithful, hsound, h.settings_eq, h.tokenizer_eq, h.document_eq⟩

private theorem Intact.followEdit (h : Intact settings T states s)
    (hmet : T.states s.sync.editor.document.lines ⊆ states) :
    Rendered settings T states s.followEdit := by
  have hfirst := h.sync.refresh hmet .partly
  rw [Session.followEdit]
  split
  · exact hfirst
  -- Marking lines leaves the text alone, and the second pass makes good for it.
  · exact (hfirst.toIntact.markDirtyFrom _).refresh hmet .forceVisible

private theorem followEdit_document (s : Session σ) :
    s.followEdit.editor.document = s.sync.editor.document := by
  rw [followEdit]
  split
  · rfl
  · rfl

private theorem settle_document (s : Session σ) : s.settle.editor.document = s.editor.document := by
  rw [settle]
  split
  · rfl
  · rfl

private theorem Intact.handle_passes (h : Intact settings T states s) {event : Event}
    (hpasses : s.passes event = true)
    (hmet : T.states (s.handle event).2.editor.document.lines ⊆ states) :
    Rendered settings T states (s.handle event).2 := by
  cases event with
  | attach =>
    have hlive : ¬ s.editor.tornDown = true := by simpa [passes] using hpasses
    rw [handle_attach, if_neg hlive] at hmet ⊢
    exact h.sync.refresh hmet .partly
  | setCode code =>
    have hlive : ¬ s.editor.tornDown = true := by simpa [passes] using hpasses
    rw [handle_setCode, if_neg hlive] at hmet ⊢
    exact (h.load code).takeSelection.refresh hmet .partly
  | textChanged now =>
    have hlive : ¬ s.editor.tornDown = true := by simpa [passes] using hpasses
    have htouched : (s.followEdit.touch now).editor.document = s.sync.editor.document :=
      s.followEdit_document
    rw [handle_textChanged, if_neg hlive] at hmet ⊢
    dsimp only at hmet
    rw [htouched] at hmet
    exact (h.followEdit hmet).touch now
  | scrolled now =>
    have hlive : ¬ s.editor.tornDown = true := by simpa [passes] using hpasses
    rw [handle_scrolled, if_neg hlive] at hmet ⊢
    exact (h.refresh hmet .partly).touch now
  | pollIdle now =>
    obtain ⟨hlive, hdue⟩ : ¬ s.editor.tornDown = true ∧ s.editor.idle.isDue now = true := by
      simpa [passes] using hpasses
    rw [handle_pollIdle, if_neg hlive, if_pos hdue] at hmet ⊢
    have hfired : Intact settings T states { s with editor := { s.editor with
        idle := { s.editor.idle with lastActivity := none } } } :=
      h.rests ⟨rfl, rfl, rfl, rfl, rfl⟩
    exact hfired.refresh hmet .forceVisibleAndDirty
  | flush =>
    obtain ⟨hlive, hpending⟩ : ¬ s.editor.tornDown = true ∧ s.editor.pending.isSome = true := by
      simpa [passes] using hpasses
    rw [handle_flush, if_neg hlive] at hmet ⊢
    dsimp only at hmet
    rw [settle_document] at hmet
    exact h.settle hmet hpending
  | requestRender mode => simp [passes] at hpasses
  | setSelection selection => simp [passes] at hpasses
  | teardown => simp [passes] at hpasses

private theorem Intact.move (h : Intact settings T states s) {m : Move}
    (hmet : s.statesMet [m] ⊆ states) : Intact settings T states (s.move m) := by
  cases m with
  | change change =>
    exact h.rests ⟨rfl, rfl, rfl, rfl, s.surface.change_rendered change⟩
  | event event =>
    cases hpasses : s.passes event with
    | true =>
      rw [statesMet, runsPass, if_pos hpasses, h.tokenizer_eq] at hmet
      exact (h.handle_passes hpasses fun st hst => hmet (List.mem_append_left _ hst)).toIntact
    | false => exact h.rests (handle_rests hpasses)

private theorem Intact.run (h : Intact settings T states s) {moves : List Move}
    (hmet : s.statesMet moves ⊆ states) : Intact settings T states (s.run moves) := by
  induction moves generalizing s with
  | nil => exact h
  | cons m moves ih =>
    rw [← List.singleton_append, statesMet_append] at hmet
    have hm : s.statesMet [m] ⊆ states := fun st hst => hmet (List.mem_append_left _ hst)
    exact ih (h.move hm) fun st hst => hmet (List.mem_append_right _ hst)

/-- After the event, where it is not refused, the document is the text of the surface. -/
def Event.syncs : Event → Bool
  | .attach | .setCode _ | .textChanged _ => true
  | _ => false

@[simp] theorem refresh_code (s : Session σ) (mode : RenderMode) :
    (s.refresh mode).editor.code = s.editor.code := rfl

@[simp] theorem refresh_text (s : Session σ) (mode : RenderMode) :
    (s.refresh mode).surface.text = s.surface.text := by
  rw [refresh, settle_text]

private theorem followEdit_synced (s : Session σ) :
    s.followEdit.editor.code = s.surface.text ∧ s.followEdit.surface.text = s.surface.text := by
  have hcode : (s.sync.refresh .partly).editor.code = s.surface.text := s.sync_code
  have htext : (s.sync.refresh .partly).surface.text = s.surface.text :=
    refresh_text s.sync .partly
  rw [followEdit]
  split
  · exact ⟨hcode, htext⟩
  · rw [refresh_code, refresh_text]
    exact ⟨hcode, htext⟩

private theorem handle_synced {event : Event} (hsyncs : event.syncs = true)
    (hdone : (s.handle event).1 = .done) :
    (s.handle event).2.editor.code = (s.handle event).2.surface.text := by
  cases event with
  | attach =>
    rw [handle_attach] at hdone ⊢
    split at hdone
    · contradiction
    · rename_i hlive
      rw [if_neg hlive, refresh_code, refresh_text]
      exact s.sync_code
  | setCode code =>
    rw [handle_setCode] at hdone ⊢
    split at hdone
    · contradiction
    · rename_i hlive
      rw [if_neg hlive, refresh_code, refresh_text]
      exact Document.toText_ofText code
  | textChanged now =>
    rw [handle_textChanged] at hdone ⊢
    split at hdone
    · contradiction
    · rename_i hlive
      rw [if_neg hlive]
      obtain ⟨hcode, htext⟩ := s.followEdit_synced
      dsimp only
      rw [touch_code, touch_text, hcode, htext]
  | _ => simp [Event.syncs] at hsyncs

/-- After an event that takes over a text or hands one out, document and surface have the same text.
After an event that runs a pass, and where they have the same text, the surface shows its lines with
the tokens of the editor, and those up to some lines past the last visible one are not out of date.
If no two states that readings of the rendered texts went through have the same fingerprint, these
lines are up to date: the tokens and the state behind them are those of a reading of the whole text
from its start. No index goes past `maxSize`, where the addition of the padding stops. -/
theorem surface_rendered {e : Editor σ} (hcreate : Editor.create settings T = .ok e)
    (surface : Surface σ) (hempty : surface.rendered = []) (moves : List Move) (event : Event) :
    let s : Session σ := Session.run ⟨e, surface⟩ moves
    let next := (s.handle event).2
    let lines := next.editor.renderer.lines
    let texts := next.surface.text.splitOn '\n'
    let last := next.surface.viewport.visibleLines.2
    (event.syncs = true → (s.handle event).1 = .done →
        next.editor.code = next.surface.text) ∧
      (s.passes event = true → next.editor.code = next.surface.text →
        next.surface.rendered.map Line.text = texts ∧
        next.surface.rendered.map Line.tokens = lines.map Line.tokens ∧
        (next.surface.visible? = none → ∀ (i : Nat) (l : Line σ), lines[i]? = some l →
          i ≤ maxSize → i ≤ min last (texts.length - 1) + settings.padding →
          l.dirty = false ∧
          (Fingerprint.Separates (statesMet ⟨e, surface⟩ (moves ++ [.event event])) →
            (T.document texts)[i]? = some l.result))) := by
  intro s next lines texts last
  constructor
  · intro hsyncs hdone
    exact handle_synced hsyncs hdone
  intro hpasses hcode
  have hmet := statesMet_append ⟨e, surface⟩ moves [.event event]
  generalize hstates : statesMet ⟨e, surface⟩ (moves ++ [.event event]) = states at hmet ⊢
  have hs : Intact settings T states s := (intact_create hcreate hempty).run fun st hst =>
    hmet ▸ List.mem_append_left _ hst
  have hnext : Rendered settings T states next := hs.handle_passes hpasses fun st hst => by
    have hlast : st ∈ s.statesMet [.event event] := by
      rw [statesMet, runsPass, if_pos hpasses, hs.tokenizer_eq]
      exact List.mem_append_left _ hst
    exact hmet ▸ List.mem_append_right _ hlast
  have hdocument : next.editor.document = .ofText next.surface.text := by
    rw [← hcode]
    exact hnext.document_eq
  have htexts : next.editor.document.lines = texts := by
    rw [hdocument]
    exact Text.lines_eq_splitOn next.surface.text
  have htokens := hnext.shown_map Line.tokens fun _ => rfl
  refine ⟨?_, htokens, ?_⟩
  · rw [hnext.shown_map Line.text fun _ => rfl, ← htexts]
    exact hnext.texts
  · intro hvisible i l hl hsize hi
    have hwindow : i ≤ next.window.last := by
      rw [window_last hdocument hvisible, Text.lines_eq_splitOn, hnext.settings_eq]
      exact Nat.le_min.mpr ⟨hi, hsize⟩
    have hcurrent := hnext.current i l hl hwindow
    rwa [htexts] at hcurrent

section

-- Sessions on fixed moves are compared as written here, and evaluated only by decision.
attribute [local irreducible] handle run

/-- An edit above a number turns the object that it is in into an array. -/
theorem surface_rendered_edited :
    let e : Editor Json.State :=
      { settings := {}
        renderer := .ofTokenizer Json.language.tokenizer Cache.defaultCapacity
        idle := { delay := 500000 } }
    let moves : List Move :=
      [.change (.text ['{', '\n', '1']), .event .attach, .change (.text ['[', '\n', '1'])]
    let s : Session Json.State := Session.run ⟨e, {}⟩ moves
    let next := (s.handle (.textChanged 0)).2
    let l := Line.rendered 6 ['1'] { brackets := [.array] }
      ⟨[⟨.number, ['1']⟩], { brackets := [.array] }⟩
    (s.handle (.textChanged 0)).1 = .done ∧ s.passes (.textChanged 0) = true ∧
      next.editor.code = next.surface.text ∧
      next.surface.rendered.map Line.text = [['['], ['1']] ∧
      next.surface.rendered.map Line.tokens = [[⟨.bracket, ['[']⟩], [⟨.number, ['1']⟩]] ∧
      next.editor.renderer.lines[1]? = some l ∧ l.dirty = false ∧
      Fingerprint.Separates (statesMet ⟨e, {}⟩ (moves ++ [.event (.textChanged 0)])) ∧
      (Json.language.tokenizer.document [['['], ['1']])[1]? = some l.result := by
  intro e moves s next l
  have hcreate : Editor.create {} Json.language.tokenizer = .ok e := rfl
  obtain ⟨hsynced, hrendered⟩ := surface_rendered hcreate {} rfl moves (.textChanged 0)
  have hdone : (s.handle (.textChanged 0)).1 = .done := by decide +kernel
  have hpasses : s.passes (.textChanged 0) = true := by decide +kernel
  have hcode : next.editor.code = next.surface.text := hsynced rfl hdone
  obtain ⟨htexts, htokens, hcurrent⟩ := hrendered hpasses hcode
  have hsplit : next.surface.text.splitOn '\n' = [['['], ['1']] := by decide +kernel
  have hvisible : next.surface.visible? = none := by decide +kernel
  have hline : next.editor.renderer.lines[1]? = some l := by decide +kernel
  have hsep : Fingerprint.Separates (statesMet ⟨e, {}⟩ (moves ++ [.event (.textChanged 0)])) := by
    decide +kernel
  obtain ⟨hclean, hresult⟩ := hcurrent hvisible 1 l hline (by decide) (by decide +kernel)
  refine ⟨hdone, hpasses, hcode, htexts.trans hsplit, ?_, hline, hclean, hsep,
    hsplit ▸ hresult hsep⟩
  exact htokens.trans (by decide +kernel)

/-- Two rows of brackets after which the states have the same fingerprint. An edit that turns the one
into the other leaves the key below it as it was, a string in an expression. -/
theorem surface_stale_of_collision :
    let T := Builtin.json.tokenizer
    let settings : Settings := { language := "json".toList }
    let e : Editor LexerState :=
      { settings
        renderer := .ofTokenizer T Cache.defaultCapacity
        idle := { delay := 500000 } }
    let key : Text := [']', '"', 'k', '"']
    let before : Text := ['[', '[', '{', '{', '(', '{', '{', '{', '(', '(', '[', '{', '(', '{', '[',
      '(', '{', '[', '{', '{', '{', '[', '[', '(', '{', '{', '[', '{', '{', '(', '(', '[']
    let after : Text := ['{', '{', '{', '[', '{', '{', '{', '[', '{', '{', '{', '(', '{', '{', '{',
      '{', '(', '{', '{', '{', '{', '{', '{', '{', '[', '{', '{', '[', '{', '{', '{', '[']
    let s : Session LexerState := Session.run ⟨e, {}⟩ [.change (.text (before ++ '\n' :: key)),
      .event .attach, .change (.text (after ++ '\n' :: key))]
    let next := (s.handle (.textChanged 0)).2
    let texts := next.surface.text.splitOn '\n'
    Editor.create settings T = .ok e ∧
      (s.handle (.textChanged 0)).1 = .done ∧ s.passes (.textChanged 0) = true ∧
      next.editor.code = next.surface.text ∧ next.surface.visible? = none ∧
      1 ≤ min next.surface.viewport.visibleLines.2 (texts.length - 1) + settings.padding ∧
      ∃ l, next.editor.renderer.lines[1]? = some l ∧ l.dirty = false ∧
        l.tokens = [⟨.bracket, [']']⟩, ⟨.string, ['"']⟩, ⟨.string, ['k']⟩, ⟨.string, ['"']⟩] ∧
        (T.document texts)[1]?.map LineTokens.tokens = some [⟨.bracket, [']']⟩,
          ⟨.identifier, ['"']⟩, ⟨.identifier, ['k']⟩, ⟨.identifier, ['"']⟩] ∧
        (T.document texts)[1]? ≠ some l.result := by
  intro T settings e key before after s next texts
  have hline : (next.editor.renderer.lines[1]?).map (fun l => (l.dirty, l.tokens)) =
      some (false, [⟨.bracket, [']']⟩, ⟨.string, ['"']⟩, ⟨.string, ['k']⟩, ⟨.string, ['"']⟩]) := by
    decide +kernel
  have hread : (T.document texts)[1]?.map LineTokens.tokens = some [⟨.bracket, [']']⟩,
      ⟨.identifier, ['"']⟩, ⟨.identifier, ['k']⟩, ⟨.identifier, ['"']⟩] := by decide +kernel
  obtain ⟨l, hl, hfields⟩ := Option.map_eq_some_iff.mp hline
  obtain ⟨hclean, htokens⟩ := Prod.mk.inj hfields
  refine ⟨rfl, by decide +kernel, by decide +kernel, by decide +kernel, by decide +kernel,
    by decide +kernel, l, hl, hclean, htokens, hread, ?_⟩
  intro hsame
  rw [hsame, Option.map_some] at hread
  have hkeys : l.tokens = _ := Option.some.inj hread
  rw [htokens] at hkeys
  exact absurd hkeys (by decide)

end

end Session
end Highlight
