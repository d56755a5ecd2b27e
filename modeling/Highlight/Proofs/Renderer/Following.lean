import Highlight.Proofs.Renderer.Run
import Highlight.Proofs.Renderer.Step
/-! # Displays follow their renderer

A list that starts empty and is changed by the scripts of the passes alone shows after each pass
the lines of the renderer, and no patch falls outside the list. It rests on identities: a line of
the pass before is kept if and only if the identity in its place is still the same.
-/
namespace Highlight

variable {σ : Type}

/-- The current line is the shown one, which may have become out of date since. -/
def Line.Shows (shown current : Line σ) : Prop := current = shown ∨ current = shown.markDirty

theorem Line.Shows.trans {l m n : Line σ} (h : l.Shows m) (h' : m.Shows n) : l.Shows n := by
  rcases h with rfl | rfl
  · exact h'
  · rcases h' with rfl | rfl
    · exact .inr rfl
    · exact .inr rfl

theorem Line.Shows.id_eq {l m : Line σ} (h : l.Shows m) : m.id = l.id := by
  rcases h with rfl | rfl
  · rfl
  · rfl

theorem Line.shows_reachedBy [Fingerprint σ] (l : Line σ) (inbound : σ) :
    l.Shows (l.reachedBy inbound) := l.reachedBy_eq inbound

/-- The two lines agree, but for a line with one of the identities that has become out of date. -/
def Line.Mirrors (ids : List Nat) (shown current : Line σ) : Prop :=
  shown = current ∨ (current = shown.markDirty ∧ current.id ∈ ids)

private theorem Line.Mirrors.shows {ids : List Nat} {l m : Line σ} (h : l.Mirrors ids m) :
    l.Shows m := by
  rcases h with rfl | ⟨heq, -⟩
  · exact .inl rfl
  · exact .inr heq

private theorem Line.Shows.mirrors {ids : List Nat} {l m : Line σ} (h : l.Shows m)
    (hid : m.id ∈ ids) : l.Mirrors ids m := by
  rcases h with rfl | heq
  · exact .inl rfl
  · exact .inr ⟨heq, hid⟩

private theorem Line.Mirrors.same {ids : List Nat} {l m : Line σ} (h : l.Mirrors ids m) :
    (l.id = m.id ∧ l.text = m.text ∧ l.tokens = m.tokens ∧ l.outbound = m.outbound) ∧
      (l = m ∨ (m = l.markDirty ∧ m.id ∈ ids)) := by
  constructor
  · rcases h with rfl | ⟨rfl, -⟩
    · exact ⟨rfl, rfl, rfl, rfl⟩
    · exact ⟨rfl, rfl, rfl, rfl⟩
  · exact h

namespace Patch

variable {α : Type}

def AllFit (form : Line σ → α) : List α → List (Patch σ) → Prop
  | _, [] => True
  | shown, p :: ps => p.Fits shown.length ∧ AllFit form (p.apply form shown) ps

private theorem apply_insert (form : Line σ → α) (done shown : List α) (l : Line σ) :
    apply form (done ++ shown) ⟨done.length, .insert l⟩ = done ++ form l :: shown := by
  show (done ++ shown).insertIdx done.length (form l) = done ++ form l :: shown
  induction done with
  | nil => rfl
  | cons a done ih => simp [ih]

private theorem apply_remove (form : Line σ → α) (done shown : List α) (a : α) :
    apply form (done ++ a :: shown) ⟨done.length, .remove⟩ = done ++ shown := by
  show (done ++ a :: shown).eraseIdx done.length = done ++ shown
  rw [List.eraseIdx_append_of_length_le (Nat.le_refl _)]
  simp

private theorem apply_replace (form : Line σ → α) (done shown : List α) (a : α) (l : Line σ) :
    apply form (done ++ a :: shown) ⟨done.length, .replace l⟩ = done ++ form l :: shown := by
  show (done ++ a :: shown).set done.length (form l) = done ++ form l :: shown
  rw [List.set_append_right _ _ (Nat.le_refl _)]
  simp

/-- What is done stays, and the script turns the shown lines behind it into the current ones. -/
def Leads (ids : List Nat) (done shown : List (Line σ)) (script : List (Patch σ))
    (lines : List (Line σ)) : Prop :=
  AllFit id (done ++ shown) script ∧
    ∃ now, applyAll id (done ++ shown) script = done ++ now ∧
      List.Forall₂ (Line.Mirrors ids) now lines

variable {ids : List Nat} {done shown lines : List (Line σ)} {script : List (Patch σ)}

private theorem Leads.finish (ids : List Nat) (done : List (Line σ)) : Leads ids done [] [] [] :=
  ⟨trivial, [], rfl, .nil⟩

private theorem Leads.step {p : Patch σ} {now new shown' : List (Line σ)}
    (hfits : p.Fits (done ++ shown).length)
    (happly : p.apply id (done ++ shown) = done ++ now ++ shown')
    (hnow : List.Forall₂ (Line.Mirrors ids) now new)
    (h : Leads ids (done ++ now) shown' script lines) :
    Leads ids done shown (p :: script) (new ++ lines) := by
  obtain ⟨hfit, rest, hrest, hlines⟩ := h
  constructor
  · exact ⟨hfits, happly ▸ hfit⟩
  · refine ⟨now ++ rest, ?_, List.rel_append hnow hlines⟩
    rw [applyAll, List.foldl_cons, happly, ← List.append_assoc]
    exact hrest

private theorem Leads.keep {s l : Line σ} (hs : s.Mirrors ids l)
    (h : Leads ids (done ++ [s]) shown script lines) :
    Leads ids done (s :: shown) (⟨done.length, .keep⟩ :: script) (l :: lines) := by
  have happly : apply id (done ++ s :: shown) (⟨done.length, .keep⟩ : Patch σ) =
      done ++ [s] ++ shown := by simp [apply]
  have hfits : Fits (done ++ s :: shown).length (⟨done.length, .keep⟩ : Patch σ) := trivial
  exact h.step hfits happly (.cons hs .nil)

private theorem Leads.replace (s l : Line σ) (h : Leads ids (done ++ [l]) shown script lines) :
    Leads ids done (s :: shown) (⟨done.length, .replace l⟩ :: script) (l :: lines) := by
  have hfits : Fits (done ++ s :: shown).length ⟨done.length, .replace l⟩ := by simp [Fits]
  have happly : apply id (done ++ s :: shown) ⟨done.length, .replace l⟩ = done ++ [l] ++ shown := by
    rw [apply_replace, List.append_assoc]
    rfl
  exact h.step hfits happly (.cons (.inl rfl) .nil)

private theorem Leads.insert (l : Line σ) (h : Leads ids (done ++ [l]) shown script lines) :
    Leads ids done shown (⟨done.length, .insert l⟩ :: script) (l :: lines) := by
  have hfits : Fits (done ++ shown).length ⟨done.length, .insert l⟩ := by simp [Fits]
  have happly : apply id (done ++ shown) ⟨done.length, .insert l⟩ = done ++ [l] ++ shown := by
    rw [apply_insert, List.append_assoc]
    rfl
  exact h.step hfits happly (.cons (.inl rfl) .nil)

private theorem Leads.remove (s : Line σ) (h : Leads ids done shown script lines) :
    Leads ids done (s :: shown) (⟨done.length, .remove⟩ :: script) lines := by
  have hfits : Fits (done ++ s :: shown).length (⟨done.length, .remove⟩ : Patch σ) := by
    simp [Fits]
  have happly : apply id (done ++ s :: shown) (⟨done.length, .remove⟩ : Patch σ) =
      done ++ [] ++ shown := by
    rw [apply_remove, List.append_nil]
  rw [← List.append_nil done] at h
  exact h.step hfits happly .nil

end Patch

/-- The line is the old one, or its identity is none of those given. -/
def Line.Continues (ids : List Nat) (old? : Option (Line σ)) (l : Line σ) : Prop :=
  (∃ old, old? = some old ∧ old.Shows l) ∨ l.id ∉ ids

/-- A script turns what shows the previous lines into what shows the current ones, as long as every
current line that is not a kept one has an identity of its own. -/
theorem Patch.scriptFrom_leads {ids : List Nat} {es : List Diff.Entry} {olds : List (Line σ)}
    {texts : List Text} (h : Diff.Replay es (olds.map Line.text) texts)
    (hids : ∀ old ∈ olds, old.id ∈ ids) {lines : List (Line σ)}
    (hlines : List.Forall₂ (fun w l => l.Continues ids w.2)
      (texts.zip (Renderer.align es olds)) lines)
    (done : List (Line σ)) {shown : List (Line σ)} (hshown : List.Forall₂ Line.Shows shown olds) :
    Leads ids done shown (scriptFrom done.length es (olds.map Line.id) lines) lines := by
  generalize hps : olds.map Line.text = ps at h
  -- What is done grows by one line with each line of the current list that the entries pass.
  induction h generalizing olds lines done shown with
  | done =>
    rw [List.map_eq_nil_iff.mp hps] at hshown hlines ⊢
    rw [List.forall₂_nil_right_iff.mp hshown, List.forall₂_nil_left_iff.mp hlines]
    exact .finish ids done
  | same x _ ih =>
    obtain ⟨old, olds, rfl, -, htail⟩ := List.map_eq_cons_iff.mp hps
    obtain ⟨s, shown, hs, hrest, rfl⟩ := List.forall₂_cons_right_iff.mp hshown
    obtain ⟨l, lines, hl, hmore, rfl⟩ := List.forall₂_cons_left_iff.mp hlines
    have hold : old.id ∈ ids := hids old List.mem_cons_self
    have hnext := fun m => ih (fun o ho => hids o (List.mem_cons_of_mem old ho)) hmore
      (done ++ [m]) hrest htail
    simp only [List.length_append, List.length_singleton] at hnext
    rcases hl with ⟨o, ho, hshows⟩ | hnew
    · obtain rfl : old = o := Option.some.inj ho
      have hid : l.id = old.id := hshows.id_eq
      rw [List.map_cons, scriptFrom, refresh, if_pos hid.symm]
      exact .keep ((hs.trans hshows).mirrors (hid ▸ hold)) (hnext s)
    · have hid : old.id ≠ l.id := fun heq => hnew (heq ▸ hold)
      rw [List.map_cons, scriptFrom, refresh, if_neg hid]
      exact .replace s l (hnext l)
  | modified _ _ _ _ ih =>
    obtain ⟨old, olds, rfl, -, htail⟩ := List.map_eq_cons_iff.mp hps
    obtain ⟨s, shown, -, hrest, rfl⟩ := List.forall₂_cons_right_iff.mp hshown
    obtain ⟨l, lines, -, hmore, rfl⟩ := List.forall₂_cons_left_iff.mp hlines
    have hnext := ih (fun o ho => hids o (List.mem_cons_of_mem old ho)) hmore (done ++ [l])
      hrest htail
    rw [List.length_append, List.length_singleton] at hnext
    exact .replace s l hnext
  | added c _ ih =>
    rw [Renderer.align, List.zip_cons_cons] at hlines
    obtain ⟨l, lines, -, hmore, rfl⟩ := List.forall₂_cons_left_iff.mp hlines
    have hnext := ih hids hmore (done ++ [l]) hshown hps
    rw [List.length_append, List.length_singleton] at hnext
    rw [scriptFrom]
    exact .insert l hnext
  | removed p _ ih =>
    obtain ⟨old, olds, rfl, -, htail⟩ := List.map_eq_cons_iff.mp hps
    obtain ⟨s, shown, -, hrest, rfl⟩ := List.forall₂_cons_right_iff.mp hshown
    rw [List.map_cons, scriptFrom]
    exact .remove s (ih (fun o ho => hids o (List.mem_cons_of_mem old ho)) hlines done hrest htail)

namespace Renderer

variable [DecidableEq σ] [Fingerprint σ]

theorem Pass.read_id (T : Tokenizer σ) (text : Text) (inbound : σ) (p : Pass σ) :
    (p.read T text inbound).1.id = p.lastId + 1 ∧
      (p.read T text inbound).2.lastId = p.lastId + 1 := by
  unfold read
  split
  · exact ⟨rfl, rfl⟩
  · exact ⟨rfl, rfl⟩

theorem LineStep.identity {T : Tokenizer σ} {window : Window} {mode : RenderMode} {index : Nat}
    {text : Text} {inbound : σ} {p : Pass σ} {old? : Option (Line σ)} {next : Line σ × Pass σ}
    (h : LineStep T window mode index text inbound p old? next) :
    (∃ old, old? = some old ∧ old.Shows next.1 ∧ next.2.lastId = p.lastId) ∨
      (next.1.id = p.lastId + 1 ∧ next.2.lastId = p.lastId + 1) := by
  cases h with
  | @kept old reuses settled =>
    exact .inl ⟨old, rfl, old.shows_reachedBy inbound, p.meet_lastId old inbound⟩
  | @refreshed old reuses dirty needed =>
    have hread := Pass.read_id T text inbound (p.meet old inbound).countDirty
    have hlast : (p.meet old inbound).countDirty.lastId = p.lastId := p.meet_lastId old inbound
    rw [hlast] at hread
    exact .inr hread
  | left new notFull below => exact .inr ⟨rfl, rfl⟩
  | read new needed => exact .inr (Pass.read_id T text inbound p)

/-- No line has an identity that was not given out yet. -/
def Numbered (r : Renderer σ) : Prop := ∀ l ∈ r.lines, l.id ≤ r.lastId

theorem renderLines_id_le {T : Tokenizer σ} {window : Window} {mode : RenderMode}
    (work : List (Text × Option (Line σ))) (index : Nat) (inbound : σ) (p : Pass σ)
    (hold : ∀ w ∈ work, ∀ old ∈ w.2, old.id ≤ p.lastId) :
    p.lastId ≤ (renderLines T window mode index inbound p work).2.lastId ∧
      ∀ l ∈ (renderLines T window mode index inbound p work).1,
        l.id ≤ (renderLines T window mode index inbound p work).2.lastId := by
  induction work generalizing index inbound p with
  | nil => exact ⟨Nat.le_refl _, by simp [renderLines]⟩
  | cons w work ih =>
    have hstep := (renderLine_step T window mode index w.1 w.2 inbound p).identity
    have hhead : p.lastId ≤ (renderLine T window mode index w.1 w.2 inbound p).2.lastId ∧
        (renderLine T window mode index w.1 w.2 inbound p).1.id ≤
          (renderLine T window mode index w.1 w.2 inbound p).2.lastId := by
      rcases hstep with ⟨old, hmem, hshows, hlast⟩ | ⟨hid, hlast⟩
      · have hle := hold w List.mem_cons_self old hmem
        rw [hshows.id_eq, hlast]
        exact ⟨Nat.le_refl _, hle⟩
      · rw [hid, hlast]
        exact ⟨Nat.le_succ _, Nat.le_refl _⟩
    have hrest := ih (index + 1) (renderLine T window mode index w.1 w.2 inbound p).1.outbound
      (renderLine T window mode index w.1 w.2 inbound p).2
      fun v hv old ho => Nat.le_trans (hold v (List.mem_cons_of_mem w hv) old ho) hhead.1
    constructor
    · exact Nat.le_trans hhead.1 hrest.1
    · intro l hl
      rcases List.mem_cons.mp hl with rfl | hl
      · exact Nat.le_trans hhead.2 hrest.1
      · exact hrest.2 l hl

theorem Numbered.perform {r : Renderer σ} (h : r.Numbered) (request : Request) :
    (r.perform request).Numbered := by
  cases request with
  | render texts window mode =>
    exact (renderLines_id_le (r.work texts) 0 r.tokenizer.initial _
      fun w hw old ho => h old (old_of_mem_work hw old ho).1).2
  | markDirtyFrom index =>
    intro l hl
    rcases List.mem_append.mp hl with hl | hl
    · exact h l (List.mem_of_mem_take hl)
    · obtain ⟨m, hm, rfl⟩ := List.mem_map.mp hl
      exact h m (List.mem_of_mem_drop hm)
  | reset => simp [Renderer.perform, reset, Numbered]

/-- Each line of a pass is the old one or has an identity that was not given out before. -/
theorem pass_origin (r : Renderer σ) (texts : List Text) (window : Window) (mode : RenderMode) :
    List.Forall₂ (fun w l => (∃ old, w.2 = some old ∧ old.Shows l) ∨ r.lastId < l.id)
      (r.work texts) (r.pass texts window mode).1 := by
  apply And.right
  apply renderLines_forall₂ (I := fun p => r.lastId ≤ p.lastId) (r.work texts) _ 0
    r.tokenizer.initial _ (Nat.le_refl _)
  intro w _ index inbound p hp
  rcases (renderLine_step r.tokenizer window mode index w.1 w.2 inbound p).identity with
    ⟨old, hold, hshows, hlast⟩ | ⟨hid, hlast⟩
  · exact ⟨hlast ▸ hp, .inl ⟨old, hold, hshows⟩⟩
  · exact ⟨by omega, .inr (by omega)⟩

private theorem Numbered.pass {r : Renderer σ} (h : r.Numbered) (texts : List Text)
    (window : Window) (mode : RenderMode) :
    List.Forall₂ (fun w l => l.Continues (r.lines.map Line.id) w.2) (r.work texts)
      (r.pass texts window mode).1 := by
  refine (r.pass_origin texts window mode).imp fun w l horigin => horigin.imp_right fun hnew => ?_
  intro hmem
  obtain ⟨old, hold, heq⟩ := List.mem_map.mp hmem
  have hle := h old hold
  omega

end Renderer

namespace Display

structure Faithful (d : Display σ) : Prop where
  numbered : d.renderer.Numbered
  shows : List.Forall₂ Line.Shows d.shown d.renderer.lines

theorem faithful_start (T : Tokenizer σ) (capacity : Nat) :
    Faithful { renderer := .ofTokenizer T capacity } :=
  ⟨by simp [Renderer.Numbered, Renderer.ofTokenizer], .nil⟩

private theorem shows_markDirtyFrom {shown lines : List (Line σ)}
    (h : List.Forall₂ Line.Shows shown lines) (index : Nat) :
    List.Forall₂ Line.Shows shown (lines.take index ++ (lines.drop index).map Line.markDirty) := by
  induction h generalizing index with
  | nil => simp
  | @cons s l shown lines hs hrest ih =>
    cases index with
    | zero =>
      have hdirty : s.Shows l.markDirty := hs.trans (.inr rfl)
      exact .cons hdirty (ih 0)
    | succ index => exact .cons hs (ih index)

variable [DecidableEq σ] [Fingerprint σ]

private theorem Faithful.script_leads {d : Display σ} (h : d.Faithful) (texts : List Text)
    (window : Window) (mode : RenderMode) :
    Patch.Leads (d.renderer.lines.map Line.id) [] d.shown
      (d.renderer.render texts window mode).1.script
      (d.renderer.render texts window mode).2.lines :=
  Patch.scriptFrom_leads (Diff.between_replay (d.renderer.lines.map Line.text) texts)
    (fun _ hold => List.mem_map_of_mem hold) (h.numbered.pass texts window mode) [] h.shows

private theorem Faithful.render {d : Display σ} (h : d.Faithful) (texts : List Text)
    (window : Window) (mode : RenderMode) :
    Patch.AllFit id d.shown (d.renderer.render texts window mode).1.script ∧
      List.Forall₂ (Line.Mirrors (d.renderer.lines.map Line.id))
        (Patch.applyAll id d.shown (d.renderer.render texts window mode).1.script)
        (d.renderer.render texts window mode).2.lines := by
  obtain ⟨hfit, now, happly, hnow⟩ := h.script_leads texts window mode
  rw [List.nil_append] at hfit happly
  rw [happly]
  exact ⟨hfit, hnow⟩

theorem Faithful.handle {d : Display σ} (h : d.Faithful) (request : Renderer.Request) :
    (d.handle request).2.Faithful := by
  constructor
  · have hnumbered := h.numbered.perform request
    cases request <;> exact hnumbered
  · cases request with
    | render texts window mode =>
      obtain ⟨-, hmirrors⟩ := h.render texts window mode
      exact hmirrors.imp fun _ _ => Line.Mirrors.shows
    | markDirtyFrom index => exact shows_markDirtyFrom h.shows index
    | reset => exact .nil

private theorem faithful_run (T : Tokenizer σ) (capacity : Nat) (requests : List Renderer.Request) :
    (run { renderer := .ofTokenizer T capacity } requests).Faithful := by
  have hrun : ∀ d : Display σ, d.Faithful → (d.run requests).Faithful := by
    induction requests with
    | nil => exact fun d h => h
    | cons request requests ih => exact fun d h => ih _ (h.handle request)
  exact hrun _ (faithful_start T capacity)

/-- After any requests, every patch of a pass falls inside the list it is applied to, and the list
then shows the lines of the renderer one by one. A shown line is the very same, unless it was kept
from the pass before and has become out of date since it was shown. -/
theorem shown_after_render (T : Tokenizer σ) (capacity : Nat) (requests : List Renderer.Request)
    (texts : List Text) (window : Window) (mode : RenderMode) :
    let d : Display σ := run { renderer := .ofTokenizer T capacity } requests
    let next := (d.handle (.render texts window mode)).2
    Patch.AllFit id d.shown (d.renderer.render texts window mode).1.script ∧
      next.renderer.lines.map Line.text = texts ∧
      List.Forall₂ (fun shown line =>
          (shown.id = line.id ∧ shown.text = line.text ∧ shown.tokens = line.tokens ∧
            shown.outbound = line.outbound) ∧
          (shown = line ∨
            (line = shown.markDirty ∧ line.id ∈ d.renderer.lines.map Line.id)))
        next.shown next.renderer.lines := by
  intro d next
  have hd : d.Faithful := faithful_run T capacity requests
  obtain ⟨hfit, hmirrors⟩ := hd.render texts window mode
  have hsame := hmirrors.imp fun _ _ => Line.Mirrors.same
  exact ⟨hfit, d.renderer.render_texts texts window mode, hsame⟩

end Display
end Highlight
