import Highlight.Json.Language
import Highlight.Proofs.Session.Calls
import Highlight.Proofs.Session.Run
/-! # The idle sweep

An idle sweep runs when the editor is asked and the last activity, an edit or a scroll that was not
refused, lies a delay back. Each activity is good for one sweep at most. What an event does to the
idle timer is one of four steps, and the timer always knows the last activity since the last sweep.
-/
namespace Highlight

variable {σ : Type}

namespace Session

/-- The instant of an activity that was not refused. -/
def activity? : Event × Reply → Option Nat
  | (.textChanged now, .done) | (.scrolled now, .done) => some now
  | _ => none

def isActivity (entry : Event × Reply) : Bool := (activity? entry).isSome

private theorem isActivity_of_none {entry : Event × Reply} (h : activity? entry = none) :
    isActivity entry = false := by
  rw [isActivity, h]
  rfl

/-- The idle sweep ran. -/
def isSweep (entry : Event × Reply) : Bool := entry.2 == .polled true

/-- The last activity that no sweep has followed was at the instant. -/
def ActiveAt (log : List (Event × Reply)) (last : Nat) : Prop :=
  ∃ before entry since, log = before ++ entry :: since ∧ activity? entry = some last ∧
    ∀ later ∈ since, activity? later = none ∧ isSweep later = false

private theorem not_activeAt_nil (last : Nat) : ¬ ActiveAt [] last := by
  rintro ⟨before, entry, since, hlog, -⟩
  simp at hlog

private theorem activeAt_append {log : List (Event × Reply)} {entry : Event × Reply} {last : Nat} :
    ActiveAt (log ++ [entry]) last ↔ activity? entry = some last ∨
      (activity? entry = none ∧ isSweep entry = false) ∧ ActiveAt log last := by
  constructor
  · rintro ⟨before, entry', since, hlog, hactive, hquiet⟩
    rcases List.eq_nil_or_concat since with rfl | ⟨since, newest, rfl⟩
    · obtain ⟨-, rfl⟩ := List.append_singleton_inj.mp hlog
      exact .inl hactive
    · rw [List.concat_eq_append, ← List.cons_append, ← List.append_assoc] at hlog
      obtain ⟨rfl, rfl⟩ := List.append_singleton_inj.mp hlog
      refine .inr ⟨hquiet _ (by simp), before, entry', since, rfl, hactive, ?_⟩
      exact fun later hlater => hquiet later (by simp [hlater])
  · rintro (hactive | ⟨hquiet, before, entry', since, rfl, hactive, hsince⟩)
    · exact ⟨log, entry, [], rfl, hactive, by simp⟩
    · refine ⟨before, entry', since ++ [entry], by simp, hactive, ?_⟩
      intro later hlater
      rcases List.mem_append.mp hlater with hlater | hlater
      · exact hsince later hlater
      · rw [List.mem_singleton.mp hlater]
        exact hquiet

/-- Render passes do not touch the timer. -/
structure Untimed (e next : Editor σ) : Prop where
  idle : next.idle = e.idle
  tornDown : next.tornDown = e.tornDown

section

variable [DecidableEq σ] [Fingerprint σ]

private theorem refresh_untimed (s : Session σ) (mode : RenderMode) :
    Untimed s.editor (s.refresh mode).editor := ⟨rfl, rfl⟩

private theorem settle_untimed (s : Session σ) : Untimed s.editor s.settle.editor := by
  unfold settle
  split
  · exact ⟨rfl, rfl⟩
  · exact ⟨rfl, rfl⟩

private theorem followEdit_untimed (s : Session σ) : Untimed s.editor s.followEdit.editor := by
  rw [followEdit]
  split
  · exact ⟨rfl, rfl⟩
  · exact ⟨rfl, rfl⟩

/-- The strongest of the request that waits and another one. -/
def strongest (waiting? : Option RenderMode) (mode : RenderMode) : RenderMode :=
  waiting?.elim mode (·.merge mode)

private theorem refresh_eq_render (s : Session σ) (mode : RenderMode) :
    s.refresh mode = Session.render { s with editor := { s.editor with pending := none } }
      (strongest s.editor.pending mode) := by
  rcases hpending : s.editor.pending with _ | waiting
  · simp only [refresh, Editor.request, hpending]
    rfl
  · simp only [refresh, Editor.request, hpending]
    rfl

end

/-- What an event and its reply tell of the idle timer. -/
inductive IdleStep (e : Editor σ) (entry : Event × Reply) (next : Editor σ) : Prop
  | touched (now : Nat) (active : activity? entry = some now) (quiet : isSweep entry = false)
      (idle : next.idle = e.idle.touch now) (live : next.tornDown = e.tornDown)
  | fired (sweep : isSweep entry = true) (silent : activity? entry = none)
      (armed : e.idle.isArmed = true) (idle : next.idle = { e.idle with lastActivity := none })
      (live : next.tornDown = e.tornDown)
  | rested (silent : activity? entry = none) (quiet : isSweep entry = false)
      (idle : next.idle = e.idle) (live : next.tornDown = e.tornDown)
  | cancelled (silent : activity? entry = none) (quiet : isSweep entry = false)
      (idle : next.idle = e.idle.cancel) (torn : next.tornDown = true)

private theorem IdleStep.of_untimed {s t : Session σ} {event : Event}
    (h : Untimed s.editor t.editor) (hsilent : activity? (event, .done) = none) :
    let result := if s.editor.tornDown then (Reply.refused .tornDown, s) else (.done, t)
    IdleStep s.editor (event, result.1) result.2.editor := by
  dsimp only
  split
  · refine .rested ?_ rfl rfl rfl
    cases event <;> rfl
  · exact .rested hsilent rfl h.idle h.tornDown

private theorem IdleStep.of_touched {s t : Session σ} {event : Event} {now : Nat}
    (h : Untimed s.editor t.editor) (hactive : activity? (event, .done) = some now) :
    let result := if s.editor.tornDown then (Reply.refused .tornDown, s) else (.done, t.touch now)
    IdleStep s.editor (event, result.1) result.2.editor := by
  dsimp only
  split
  · refine .rested ?_ rfl rfl rfl
    cases event <;> rfl
  · exact .touched now hactive rfl (congrArg (·.touch now) h.idle) h.tornDown

variable [DecidableEq σ] [Fingerprint σ]

private theorem handle_idleStep (s : Session σ) (event : Event) :
    IdleStep s.editor (event, (s.handle event).1) (s.handle event).2.editor := by
  cases event with
  | attach =>
    rw [handle_attach]
    exact .of_untimed ⟨rfl, rfl⟩ rfl
  | setCode code =>
    rw [handle_setCode]
    exact .of_untimed ⟨rfl, rfl⟩ rfl
  | textChanged now =>
    rw [handle_textChanged]
    exact .of_touched s.followEdit_untimed rfl
  | scrolled now =>
    rw [handle_scrolled]
    exact .of_touched (s.refresh_untimed .partly) rfl
  | flush =>
    rw [handle_flush]
    exact .of_untimed s.settle_untimed rfl
  | pollIdle now =>
    rw [handle_pollIdle]
    split
    · exact .rested rfl rfl rfl rfl
    · split
      · rename_i hdue
        refine .fired rfl rfl ?_ rfl rfl
        unfold IdleTimer.isDue at hdue
        unfold IdleTimer.isArmed
        exact Option.isSome_of_any hdue
      · exact .rested rfl rfl rfl rfl
  | setSelection selection =>
    rw [handle_setSelection]
    split
    · exact .rested rfl rfl rfl rfl
    · split
      · exact .rested rfl rfl rfl rfl
      · exact .rested rfl rfl rfl rfl
  | requestRender mode => exact .rested rfl rfl rfl rfl
  | teardown => exact .cancelled rfl rfl rfl rfl

/-- The timer knows the last activity since the last sweep, and there have been no more sweeps than
activities, the one that is still to come counted in. -/
structure Timed (delay : Nat) (log : List (Event × Reply)) (e : Editor σ) : Prop where
  delay_eq : e.idle.delay = delay
  remembers : e.tornDown = false → e.idle.cancelled = false ∧
    ∀ last, e.idle.lastActivity = some last ↔ ActiveAt log last
  budget : log.countP isSweep + e.idle.isArmed.toNat ≤ log.countP isActivity

section

omit [DecidableEq σ] [Fingerprint σ]

variable {delay : Nat} {log : List (Event × Reply)} {e next : Editor σ} {entry : Event × Reply}

private theorem countP_concat (p : Event × Reply → Bool) :
    (log ++ [entry]).countP p = log.countP p + (p entry).toNat := by
  rw [List.countP_append, List.countP_singleton]
  cases p entry <;> rfl

private theorem Timed.step (h : Timed delay log e) (hstep : IdleStep e entry next) :
    Timed delay (log ++ [entry]) next := by
  have hbudget := h.budget
  cases hstep with
  | touched now active quiet idle live =>
    have harmed := next.idle.isArmed.toNat_le
    constructor
    · rw [idle, IdleTimer.touch]
      split
      · exact h.delay_eq
      · exact h.delay_eq
    · intro hlive
      obtain ⟨hon, -⟩ := h.remembers (live ▸ hlive)
      rw [idle, IdleTimer.touch, if_neg (by simp [hon])]
      refine ⟨hon, fun last => ?_⟩
      rw [activeAt_append, active]
      simp
    · have hactivity : isActivity entry = true := by rw [isActivity, active]; rfl
      rw [countP_concat, countP_concat, quiet, hactivity, Bool.toNat_false, Bool.toNat_true]
      omega
  | fired sweep silent armed idle live =>
    constructor
    · rw [idle]
      exact h.delay_eq
    · intro hlive
      obtain ⟨hon, -⟩ := h.remembers (live ▸ hlive)
      rw [idle]
      refine ⟨hon, fun last => ?_⟩
      rw [activeAt_append, silent, sweep]
      simp
    · have hdisarmed : next.idle.isArmed = false := by rw [idle]; rfl
      rw [armed] at hbudget
      rw [countP_concat, countP_concat, sweep, isActivity_of_none silent, hdisarmed]
      exact hbudget
  | rested silent quiet idle live =>
    constructor
    · rw [idle]
      exact h.delay_eq
    · intro hlive
      obtain ⟨hon, hlast⟩ := h.remembers (live ▸ hlive)
      rw [idle]
      refine ⟨hon, fun last => ?_⟩
      rw [activeAt_append, silent, quiet, hlast]
      simp
    · rw [countP_concat, countP_concat, quiet, isActivity_of_none silent, idle]
      exact hbudget
  | cancelled silent quiet idle torn =>
    constructor
    · rw [idle]
      exact h.delay_eq
    · intro hlive
      rw [torn] at hlive
      contradiction
    · have hdisarmed : next.idle.isArmed = false := by rw [idle]; rfl
      rw [countP_concat, countP_concat, quiet, isActivity_of_none silent, hdisarmed]
      exact Nat.le_trans (Nat.le_add_right _ _) hbudget

end

private theorem Timed.after {delay : Nat} {log : List (Event × Reply)} {e : Editor σ}
    (h : Timed delay log e) (calls : List (Call σ)) :
    Timed delay (log ++ e.log calls) (e.after calls) := by
  induction calls generalizing log e with
  | nil =>
    rw [Editor.log, List.append_nil]
    exact h
  | cons c calls ih =>
    have hstep := h.step (handle_idleStep ⟨e, c.surface⟩ c.event)
    have hrest := ih hstep
    rwa [List.append_assoc] at hrest

omit [Fingerprint σ] in
private theorem timed_create {settings : Settings} {T : Tokenizer σ} {e : Editor σ}
    (hcreate : Editor.create settings T = .ok e) : Timed settings.idleDelay [] e := by
  unfold Editor.create at hcreate
  split at hcreate
  · contradiction
  · rw [← Except.ok.inj hcreate]
    refine ⟨rfl, fun _ => ⟨rfl, fun last => ?_⟩, Nat.le_refl 0⟩
    exact iff_of_false (Option.not_mem_none last) (not_activeAt_nil last)

/-- A live editor answers a poll. It says that the sweep ran exactly if there was an activity that no
sweep had followed yet and the last such lies a delay back; time that ran backwards counts as none.
Then a render pass runs, of the strongest mode asked for, and the timer is off: the renderer has
gone through the pass, its counts are the last ones, and the surface has been told of what changed.
Otherwise the poll changes nothing. So there are never more sweeps than activities. -/
theorem idle_sweep_iff {settings : Settings} {T : Tokenizer σ} {e : Editor σ}
    (hcreate : Editor.create settings T = .ok e) (calls : List (Call σ)) (surface : Surface σ)
    (now : Nat) (hlive : (e.after calls).tornDown = false) :
    let editor := e.after calls
    let log := e.log calls
    let result := editor.call ⟨surface, .pollIdle now⟩
    (∃ swept, result.1 = .polled swept ∧
      (swept = true ↔ ∃ last, ActiveAt log last ∧ settings.idleDelay ≤ now - last) ∧
      (swept = true → result.2.editor.idle.isArmed = false ∧
        let fired : Session σ := ⟨{ editor with
          idle := { editor.idle with lastActivity := none }, pending := none }, surface⟩
        let mode := strongest editor.pending .forceVisibleAndDirty
        result.2 = fired.render mode ∧ Passed mode fired result.2) ∧
      (swept = false → result.2 = ⟨editor, surface⟩)) ∧
    log.countP isSweep ≤ log.countP isActivity := by
  intro editor log result
  have htimed : Timed settings.idleDelay log editor := (timed_create hcreate).after calls
  obtain ⟨-, hlast⟩ := htimed.remembers hlive
  have hdue : editor.idle.isDue now = true ↔
      ∃ last, ActiveAt log last ∧ settings.idleDelay ≤ now - last := by
    rw [IdleTimer.isDue, htimed.delay_eq, Option.any_eq_true]
    simp only [hlast, decide_eq_true_eq]
  have hresult : result = _ := handle_pollIdle ⟨editor, surface⟩ now
  rw [if_neg (by simp [editor, hlive])] at hresult
  refine ⟨⟨editor.idle.isDue now, ?_, hdue, ?_, ?_⟩, ?_⟩
  · rw [hresult]
    split
    · rename_i hswept
      rw [hswept]
    · rename_i hearly
      rw [Bool.eq_false_iff.mpr hearly]
  · intro hswept
    rw [if_pos hswept] at hresult
    rw [hresult]
    have hrender := refresh_eq_render ⟨{ editor with
      idle := { editor.idle with lastActivity := none } }, surface⟩ .forceVisibleAndDirty
    exact ⟨rfl, hrender, passed_iff.mpr hrender⟩
  · intro hearly
    rw [if_neg (by simp [hearly])] at hresult
    rw [hresult]
  · exact Nat.le_trans (Nat.le_add_right _ _) htimed.budget

section

-- Editors behind fixed calls are compared as written here, and evaluated only by decision.
attribute [local irreducible] Editor.call Editor.after

/-- An edit after which the clock goes back, and a scroll that the sweep is counted from. The sweep
finds a full pass waiting, which reads the line again from the cache. -/
theorem idle_sweep_iff_scrolled :
    let e : Editor Json.State :=
      { settings := {}
        renderer := .ofTokenizer Json.language.tokenizer Cache.defaultCapacity
        idle := { delay := 500000 } }
    let surface : Surface Json.State := { text := ['1'] }
    let calls : List (Call Json.State) := [⟨surface, .textChanged 900000⟩,
      ⟨surface, .pollIdle 100⟩, ⟨surface, .scrolled 200000⟩, ⟨surface, .requestRender .full⟩]
    let start : Json.State := {}
    let shown := Line.rendered 2 ['1'] start ⟨[⟨.number, ['1']⟩], start⟩
    let renewed := Line.rendered 3 ['1'] start ⟨[⟨.number, ['1']⟩], start⟩
    let surface' : Surface Json.State := { surface with rendered := [shown] }
    let editor := e.after calls
    let fired : Session Json.State := ⟨{ editor with
      idle := { editor.idle with lastActivity := none }, pending := none }, surface'⟩
    let result := editor.call ⟨surface', .pollIdle 700000⟩
    Editor.create {} Json.language.tokenizer = .ok e ∧ editor.tornDown = false ∧
      ActiveAt (e.log calls) 200000 ∧ 500000 ≤ 700000 - 200000 ∧
      result.1 = .polled true ∧ result.2.editor.idle.isArmed = false ∧
      strongest editor.pending .forceVisibleAndDirty = .full ∧ Passed .full fired result.2 ∧
      editor.renderer.lines = [shown] ∧ result.2.editor.renderer.lines = [renewed] ∧
      result.2.editor.lastRender = some { cacheHits := 1 } ∧
      result.2.surface.received = [[⟨0, .replace renewed⟩]] ∧
      result.2.surface.rendered = [renewed] := by
  intro e surface calls start shown renewed surface' editor fired result
  have hcreate : Editor.create {} Json.language.tokenizer = .ok e := rfl
  have hlive : editor.tornDown = false := by decide +kernel
  have hlog : e.log calls = [(.textChanged 900000, .done), (.pollIdle 100, .polled false),
      (.scrolled 200000, .done), (.requestRender .full, .noted)] := by decide +kernel
  have hactive : ActiveAt (e.log calls) 200000 := by
    rw [hlog]
    exact ⟨[_, _], _, [_], rfl, rfl, by decide⟩
  obtain ⟨⟨swept, hreply, hiff, hswept, -⟩, -⟩ :=
    idle_sweep_iff hcreate calls surface' 700000 hlive
  have htrue : swept = true := hiff.mpr ⟨200000, hactive, by decide⟩
  obtain ⟨hdisarmed, -, hpassed⟩ := hswept htrue
  have hmode : strongest editor.pending .forceVisibleAndDirty = .full := by decide +kernel
  have hpassed : Passed .full fired result.2 := hmode ▸ hpassed
  refine ⟨hcreate, hlive, hactive, by decide, ?_, hdisarmed, hmode, hpassed, by decide +kernel,
    by decide +kernel, by decide +kernel, by decide +kernel, by decide +kernel⟩
  rw [← htrue]
  exact hreply

end

end Session
end Highlight
